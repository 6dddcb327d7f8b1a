import GraphQLClient.Proofs.OrderedMaps
import GraphQLClient.Proofs.SelectionTokens
import GraphQLClient.Selection.Reader

/-!
# Printed selections read back

The text of a selection, taken from between the braces of a document, is read as the selection.
-/
namespace GraphQLClient

namespace SelectionText

open Text

variable {fuel : Nat} {rest : List Token}

/-- Every token counts for two steps of reading. -/
theorem readNumber_tokens (n : JsonNumber) (hn : isWritable (.number n) = true) :
    readValue? (fuel + 1) (literalTokens (.number n) ++ rest) = some (.number n, rest) := by
  cases n with
  | int n =>
    have hlimit : n.natAbs < signedLimit := by simpa [isWritable] using hn
    simp only [literalTokens, Json.isNegative, Json.numberToken, decide_eq_true_eq]
    split_ifs with hneg
    · have habs : -(n.natAbs : ℤ) = n := by omega
      have hread : integer? true n.natAbs = some (.number (.int n)) := by
        simp only [integer?, if_pos hlimit, if_true, habs]
      simp only [List.cons_append, List.nil_append, readValue?, hread]
      rfl
    · have habs : (n.natAbs : ℤ) = n := by omega
      have hread : integer? false n.natAbs = some (.number (.int n)) := by
        simp only [integer?, if_pos hlimit, Bool.false_eq_true, if_false, habs]
      simp only [List.cons_append, List.nil_append, readValue?, hread]
      rfl
  | float x =>
    obtain ⟨negative, significand, exponent, hcanonical⟩ := x
    simp only [literalTokens, Json.isNegative, Json.numberToken]
    cases negative with
    | true => rfl
    | false => rfl

theorem literalTokens_head (value : Json) :
    ∃ t more, literalTokens value = t :: more ∧ t ≠ .mark ']' := by
  cases value with
  | null => exact ⟨_, _, rfl, nofun⟩
  | bool b => cases b <;> exact ⟨_, _, rfl, nofun⟩
  | number n =>
    simp only [literalTokens]
    split_ifs
    · exact ⟨_, _, rfl, by decide⟩
    · cases n <;> exact ⟨_, _, rfl, nofun⟩
  | string s =>
    simp only [literalTokens]
    split_ifs
    · exact ⟨_, _, rfl, by decide⟩
    · exact ⟨_, _, rfl, nofun⟩
  | array items => exact ⟨_, _, rfl, by decide⟩
  | object fields => exact ⟨_, _, rfl, by decide⟩

section Lists

variable {item value : Json} {items : List Json} {entries : List (String × Json)}
  {tokens left : List Token} {closing : Char}

theorem readItems?_last (hhead : ∃ t more, tokens = t :: more ∧ t ≠ .mark ']')
    (hitem : readValue? fuel tokens = some (item, .mark ']' :: rest)) :
    readItems? (fuel + 1) tokens = some ([item], rest) := by
  obtain ⟨t, more, rfl, ht⟩ := hhead
  rw [readItems?]
  · simp only [hitem, Option.bind_eq_bind, Option.bind_some]
    rfl
  · intro rest heq
    exact ht (List.cons.inj heq).1

theorem readItems?_more (hhead : ∃ t more, tokens = t :: more ∧ t ≠ .mark ']')
    (hitem : readValue? fuel tokens = some (item, .mark ',' :: left))
    (hitems : readItems? fuel left = some (items, rest)) :
    readItems? (fuel + 1) tokens = some (item :: items, rest) := by
  obtain ⟨t, more, rfl, ht⟩ := hhead
  rw [readItems?]
  · simp only [hitem, hitems, Option.bind_eq_bind, Option.bind_some]
    rfl
  · intro rest heq
    exact ht (List.cons.inj heq).1

theorem readEntries?_last (name : List Char) (hclosing : closing ≠ ',')
    (hvalue : readValue? fuel tokens = some (value, .mark closing :: rest)) :
    readEntries? (fuel + 1) closing (.ident false name :: .mark ':' :: tokens) =
      some ([(String.ofList name, value)], rest) := by
  rw [readEntries?]
  simp only [hvalue, Option.bind_eq_bind, Option.bind_some, if_neg hclosing, if_true]
  rfl

theorem readEntries?_more (name : List Char)
    (hvalue : readValue? fuel tokens = some (value, .mark ',' :: left))
    (hentries : readEntries? fuel closing left = some (entries, rest)) :
    readEntries? (fuel + 1) closing (.ident false name :: .mark ':' :: tokens) =
      some ((String.ofList name, value) :: entries, rest) := by
  rw [readEntries?]
  simp only [hvalue, hentries, Option.bind_eq_bind, Option.bind_some, if_true]
  rfl

end Lists

mutual

theorem readValue?_tokens (value : Json) (fuel : Nat) (hvalue : value.all isWritable = true)
    (hfuel : 2 * (literalTokens value).length ≤ fuel) (rest : List Token) :
    readValue? fuel (literalTokens value ++ rest) = some (value, rest) := by
  obtain ⟨k, rfl⟩ : ∃ k, fuel = k + 1 := by
    obtain ⟨t, more, htokens, -⟩ := literalTokens_head value
    rw [htokens, List.length_cons] at hfuel
    exact ⟨fuel - 1, by omega⟩
  match value with
  | .null => rfl
  | .bool true => rfl
  | .bool false => rfl
  | .number n => exact readNumber_tokens n (Json.all_self hvalue)
  | .string s =>
    simp only [literalTokens]
    split_ifs with hvariable
    · obtain ⟨hdollar, -⟩ := Document.isVariable_eq_true hvariable
      simp only [List.cons_append, List.nil_append, readValue?, ← hdollar, String.ofList_toList]
    · simp only [List.cons_append, List.nil_append, readValue?, String.ofList_toList]
  | .array items =>
    simp only [literalTokens, List.length_append, List.length_cons, List.length_nil] at hfuel
    have hitems := readItems?_tokens items k (Json.all_array hvalue) (by omega) rest
    simp only [literalTokens, List.cons_append, List.append_assoc, List.nil_append, readValue?,
      hitems]
    rfl
  | .object fields =>
    simp only [literalTokens, List.length_append, List.length_cons, List.length_nil] at hfuel
    have hself := Bool.and_eq_true_iff.mp (Json.all_self hvalue)
    have hfields := readEntries?_tokens fields k (Json.all_object hvalue) (by omega)
      (show '}' ≠ ',' by decide) rest
    have hmap := Entries.ofList_of_nodup (of_decide_eq_true hself.2)
    simp only [literalTokens, List.cons_append, List.append_assoc, List.nil_append, readValue?,
      hfields, Option.bind_eq_bind, Option.bind_some, hmap]
    rfl

theorem readItems?_tokens (items : List Json) (fuel : Nat)
    (hitems : Json.allItems isWritable items = true)
    (hfuel : 2 * (itemTokens items).length + 1 ≤ fuel) (rest : List Token) :
    readItems? fuel (itemTokens items ++ .mark ']' :: rest) = some (items, rest) := by
  obtain ⟨k, rfl⟩ : ∃ k, fuel = k + 1 := ⟨fuel - 1, by omega⟩
  match items with
  | [] => rfl
  | [item] =>
    simp only [itemTokens] at hfuel ⊢
    obtain ⟨t, more, htokens, ht⟩ := literalTokens_head item
    have hitem := readValue?_tokens item k (Json.allItems_cons hitems).1 (by omega)
      (.mark ']' :: rest)
    exact readItems?_last ⟨t, more ++ .mark ']' :: rest, by rw [htokens]; rfl, ht⟩ hitem
  | item :: next :: more =>
    simp only [itemTokens, List.length_append, List.length_cons] at hfuel
    obtain ⟨hfirst, hmore⟩ := Json.allItems_cons hitems
    obtain ⟨t, behind, htokens, ht⟩ := literalTokens_head item
    have hitem := readValue?_tokens item k hfirst (by omega)
      (.mark ',' :: (itemTokens (next :: more) ++ .mark ']' :: rest))
    have htail := readItems?_tokens (next :: more) k hmore (by omega) rest
    simp only [itemTokens, List.append_assoc, List.cons_append]
    exact readItems?_more ⟨t, _, by rw [htokens]; rfl, ht⟩ hitem htail

theorem readEntries?_tokens (fields : List (String × Json)) (fuel : Nat) {closing : Char}
    (hfields : Json.allFields isWritable fields = true)
    (hfuel : 2 * (entryTokens fields).length + 1 ≤ fuel) (hclosing : closing ≠ ',')
    (rest : List Token) :
    readEntries? fuel closing (entryTokens fields ++ .mark closing :: rest) =
      some (fields, rest) := by
  obtain ⟨k, rfl⟩ : ∃ k, fuel = k + 1 := ⟨fuel - 1, by omega⟩
  match fields with
  | [] => simp [entryTokens, readEntries?]
  | [(name, value)] =>
    simp only [entryTokens, List.length_cons] at hfuel
    have hvalue := readValue?_tokens value k (Json.allFields_cons hfields).1 (by omega)
      (.mark closing :: rest)
    have hlast := readEntries?_last name.toList hclosing hvalue
    rw [String.ofList_toList] at hlast
    exact hlast
  | (name, value) :: next :: more =>
    simp only [entryTokens, List.length_append, List.length_cons] at hfuel
    obtain ⟨hfirst, hmore⟩ := Json.allFields_cons hfields
    have hvalue := readValue?_tokens value k hfirst (by omega)
      (.mark ',' :: (entryTokens (next :: more) ++ .mark closing :: rest))
    have htail := readEntries?_tokens (next :: more) k hmore (by omega) hclosing rest
    have hentries := readEntries?_more name.toList hvalue htail
    rw [String.ofList_toList] at hentries
    simp only [entryTokens, List.append_assoc, List.cons_append]
    exact hentries

end

def FollowsNode (tokens : List Token) : Prop := ∀ c more, tokens = .mark c :: more → c = '}'

theorem followsNode_nodes (nodes : List Node) (hrest : FollowsNode rest) :
    FollowsNode (nodesTokens nodes ++ rest) := by
  cases nodes with
  | nil => exact hrest
  | cons node more =>
    cases node with
    | leaf key arguments => exact nofun
    | block key arguments children => exact nofun

theorem skipComma_eq {tokens : List Token} (h : FollowsNode tokens) :
    skipComma tokens = tokens := by
  unfold skipComma
  split
  · rename_i more
    exact absurd (h ',' more rfl) (by decide)
  · rfl

theorem readArguments?_tokens {arguments : Option Json} (fuel : Nat) (tokens : List Token)
    (harguments : arguments = none ∨ ∃ fields, arguments = some (.object fields) ∧ fields ≠ [] ∧
      (Json.object fields).all isWritable = true)
    (hfuel : 2 * (argumentTokens arguments).length ≤ fuel)
    (htokens : ∀ more, tokens ≠ .mark '(' :: more) :
    readArguments? fuel (argumentTokens arguments ++ tokens) = some (arguments, tokens) := by
  rcases harguments with rfl | ⟨fields, rfl, -, hall⟩
  · change readArguments? fuel tokens = some (none, tokens)
    unfold readArguments?
    split
    · rename_i more
      exact absurd rfl (htokens more)
    · rfl
  · simp only [argumentTokens, List.length_append, List.length_cons, List.length_nil] at hfuel
    have hself := Bool.and_eq_true_iff.mp (Json.all_self hall)
    have hfields := readEntries?_tokens fields fuel (Json.all_object hall) (by omega)
      (show ')' ≠ ',' by decide) tokens
    have hmap := Entries.ofList_of_nodup (of_decide_eq_true hself.2)
    simp only [argumentTokens, List.cons_append, List.append_assoc, List.nil_append, readArguments?,
      hfields, Option.bind_eq_bind, Option.bind_some, hmap]
    rfl

section Nodes

variable {arguments : Option Json} {tokens left : List Token} {nodes children : List Node}

theorem readNodes?_leaf (name : List Char)
    (harguments : readArguments? fuel tokens = some (arguments, left)) (hleft : FollowsNode left)
    (hnodes : readNodes? fuel left = some (nodes, rest)) :
    readNodes? (fuel + 1) (.ident false name :: tokens) =
      some (.leaf (String.ofList name) arguments :: nodes, rest) := by
  rw [readNodes?]
  simp only [harguments, Option.bind_eq_bind, Option.bind_some]
  split
  · exact absurd (hleft _ _ rfl) (by decide)
  · rw [skipComma_eq hleft, hnodes]
    rfl

theorem readNodes?_block (name : List Char)
    (harguments : readArguments? fuel tokens = some (arguments, .mark '{' :: left))
    (hne : children ≠ []) {after : List Token} (hafter : FollowsNode after)
    (hchildren : readNodes? fuel left = some (children, .mark '}' :: after))
    (hnodes : readNodes? fuel after = some (nodes, rest)) :
    readNodes? (fuel + 1) (.ident false name :: tokens) =
      some (.block (String.ofList name) arguments children :: nodes, rest) := by
  rw [readNodes?]
  simp only [harguments, hchildren, Option.bind_eq_bind, Option.bind_some]
  cases children with
  | nil => exact absurd rfl hne
  | cons child more =>
    simp only [skipComma_eq hafter, hnodes, Option.bind_some]
    rfl

end Nodes

def EndsNodes (tokens : List Token) : Prop := tokens = [] ∨ ∃ more, tokens = .mark '}' :: more

theorem EndsNodes.followsNode {tokens : List Token} (h : EndsNodes tokens) :
    FollowsNode tokens := by
  rcases h with rfl | ⟨more, rfl⟩
  · exact nofun
  · rintro c _ ⟨⟩
    rfl

@[simp] theorem length_nodeTokens_pos (node : Node) : 0 < (nodeTokens node).length := by
  cases node with
  | leaf key arguments => exact Nat.succ_pos _
  | block key arguments children => exact Nat.succ_pos _

mutual

theorem readNodes?_node (node : Node) (k : Nat) (hnode : node.all isWritableNode = true)
    (hfuel : 2 * (nodeTokens node).length ≤ k + 1) {after rest : List Token} {nodes : List Node}
    (hafter : FollowsNode after) (hnodes : readNodes? k after = some (nodes, rest)) :
    readNodes? (k + 1) (nodeTokens node ++ after) = some (node :: nodes, rest) := by
  obtain ⟨-, harguments, hchildren⟩ := isWritableNode_eq_true (Node.all_self hnode)
  match node with
  | .leaf key arguments =>
    simp only [nodeTokens, List.length_cons] at hfuel
    have hread := readArguments?_tokens k after harguments (by simp only [Node.arguments]; omega)
      fun _ heq => absurd (hafter _ _ heq) (by decide)
    have hleaf := readNodes?_leaf key.toList hread hafter hnodes
    rw [String.ofList_toList] at hleaf
    exact hleaf
  | .block key arguments children =>
    simp only [nodeTokens, List.length_append, List.length_cons, List.length_nil] at hfuel
    have hread :=
      readArguments?_tokens k (.mark '{' :: (nodesTokens children ++ .mark '}' :: after))
      harguments (by simp only [Node.arguments]; omega) (by simp)
    have hinner := readNodes?_tokens children k (Node.all_block hnode) (by omega)
      (.mark '}' :: after) (Or.inr ⟨after, rfl⟩)
    have hne : children ≠ [] := fun hnil => hchildren (congrArg some hnil)
    have hblock := readNodes?_block key.toList hread hne hafter hinner hnodes
    rw [String.ofList_toList] at hblock
    simp only [nodeTokens, List.cons_append, List.append_assoc, List.nil_append]
    exact hblock

theorem readNodes?_tokens (nodes : List Node) (fuel : Nat)
    (hnodes : Node.allNodes isWritableNode nodes = true)
    (hfuel : 2 * (nodesTokens nodes).length + 1 ≤ fuel) (rest : List Token)
    (hrest : EndsNodes rest) :
    readNodes? fuel (nodesTokens nodes ++ rest) = some (nodes, rest) := by
  obtain ⟨k, rfl⟩ : ∃ k, fuel = k + 1 := ⟨fuel - 1, by omega⟩
  match nodes with
  | [] =>
    rcases hrest with rfl | ⟨more, rfl⟩
    · rfl
    · rfl
  | node :: more =>
    obtain ⟨hnode, hmore⟩ := Node.allNodes_cons hnodes
    have hpos := length_nodeTokens_pos node
    simp only [nodesTokens, List.length_append] at hfuel
    have htail := readNodes?_tokens more k hmore (by omega) rest hrest
    have hafter := followsNode_nodes more hrest.followsNode
    rw [nodesTokens, List.append_assoc]
    exact readNodes?_node node k hnode (by omega) hafter htail

end

theorem read?_of_lexes {text : List Char} {nodes : List Node}
    (hlexes : Lexes text (nodesTokens nodes)) (hnodes : Node.allNodes isWritableNode nodes = true) :
    read? (String.ofList text) = some nodes := by
  have hread := readNodes?_tokens nodes (2 * (nodesTokens nodes).length + 2) hnodes (by omega) []
    (Or.inl rfl)
  rw [List.append_nil] at hread
  simp only [read?, String.toList_ofList, hlexes.tokens?_eq, Option.bind_eq_bind, Option.bind_some,
    hread]
  rfl

end SelectionText

namespace Document

def heading (kind : OperationKind) (name : String) (declared : List (String × String)) :
    List Char :=
  kind.keyword.toList ++ ' ' :: name.toList ++ parenthesized (declared.map printDeclaration) ++
    " \x7b\n  ".toList ++ name.toList ++ parenthesized (declared.map printPassing) ++ [' ']

def selectionBody (nodes : List Node) : List Char := printNodes 2 nodes ++ '\n' :: indent 1

theorem print_selection (kind : OperationKind) (name : String) (declared : OrderedMap String)
    {nodes : List Node} (hne : nodes ≠ []) :
    print kind name declared nodes = String.ofList
      (heading kind name declared.entries ++ '{' :: selectionBody nodes ++
        "\x7d\n\x7d".toList) := by
  have hfull : nodes.isEmpty = false := List.isEmpty_eq_false_iff.mpr hne
  rw [print, printList, hfull]
  simp only [heading, selectionBody, printSelection, List.append_assoc, List.cons_append,
    List.nil_append, Bool.false_eq_true, if_false]
  rfl

/-- The printer and the reader of selections agree: what a document holds between the braces of its
selection is read as the nodes it was printed from. -/
theorem selection_round_trip (kind : OperationKind) (name : String) (declared : OrderedMap String)
    (nodes : List Node) (hne : nodes ≠ [])
    (hnodes : Node.allNodes SelectionText.isWritableNode nodes = true) :
    print kind name declared nodes = String.ofList
        (heading kind name declared.entries ++ '{' :: selectionBody nodes ++ "\x7d\n\x7d".toList) ∧
      SelectionText.read? (String.ofList (selectionBody nodes)) = some nodes := by
  refine ⟨print_selection kind name declared hne, ?_⟩
  have hend : SelectionText.Lexes ('\n' :: (indent 1 ++ [])) [] :=
    SelectionText.lexes_blank rfl (SelectionText.lexes_indent 1 (.done rfl))
  have hlexes := SelectionText.lexes_nodes 2 nodes hnodes (endsName_cons (by decide)) hend
  rw [List.append_nil, List.append_nil] at hlexes
  exact SelectionText.read?_of_lexes hlexes hnodes

/-- Words that are names, texts that look like structure, and numbers of every layout. -/
def trickySelection : List Node :=
  [.block "true" (some (.object [
      ("null", .string "$null"),
      ("r", .array [.number (.int (-7)), .number (.float (Binary64.zero true)), .object [], .null]),
      ("text", .string "\x7d\n\"$a\\"),
      ("tiny", .number (.float ⟨true, 1, -1074, by decide +kernel⟩)),
      ("huge", .number (.float ⟨false, twoPow 52, 971, by decide +kernel⟩))])) [
    .leaf "_" none, .leaf "r2" (some (.object [("x", .bool false)]))],
   .leaf "last" none]

theorem tricky_selection_round_trip :
    Node.allNodes SelectionText.isWritableNode trickySelection = true ∧
      SelectionText.read? (String.ofList (selectionBody trickySelection)) =
        some trickySelection := by
  have hnodes : Node.allNodes SelectionText.isWritableNode trickySelection = true := by
    decide +kernel
  exact ⟨hnodes, (selection_round_trip .query "tricky" .empty trickySelection nofun hnodes).2⟩

end Document

end GraphQLClient
