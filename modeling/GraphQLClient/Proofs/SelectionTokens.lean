import GraphQLClient.Document.Printer
import GraphQLClient.Proofs.NestedValues
import GraphQLClient.Proofs.NumberReading

/-!
# Tokens of printed selections

What is printed of a selection is cut into the tokens that its parts stand for, whatever its texts
hold.
-/
namespace GraphQLClient.SelectionText

open Text

inductive Lexes : List Char → List Token → Prop where
  | done {cs : List Char} : trimLeft cs = [] → Lexes cs []
  | token {cs rest left : List Char} {c : Char} {t : Token} {ts : List Token} :
    trimLeft cs = c :: rest → readToken? (c :: rest) = some (t, left) → left.length ≤ rest.length →
    Lexes left ts → Lexes cs (t :: ts)

variable {cs rest : List Char} {ts : List Token} {c : Char}

theorem length_trimLeft_le (cs : List Char) : (trimLeft cs).length ≤ cs.length :=
  (List.dropWhile_sublist isBlank).length_le

theorem Lexes.scan?_eq (h : Lexes cs ts) (fuel : Nat) (hfuel : cs.length ≤ fuel) :
    scan? fuel cs = some ts := by
  induction h generalizing fuel with
  | @done cs hcs =>
    cases fuel with
    | zero => simp [scan?, hcs]
    | succ fuel => simp [scan?, hcs]
  | @token cs rest left c t ts hcs hread hle _ ih =>
    have htrim := length_trimLeft_le cs
    rw [hcs, List.length_cons] at htrim
    cases fuel with
    | zero => omega
    | succ fuel =>
      have hmore := ih fuel (by omega)
      simp [scan?, hcs, hread, hmore]

theorem Lexes.tokens?_eq (h : Lexes cs ts) : tokens? cs = some ts :=
  h.scan?_eq cs.length (Nat.le_refl _)

theorem lexes_blank (hc : isBlank c = true) (h : Lexes cs ts) : Lexes (c :: cs) ts := by
  have htrim : trimLeft (c :: cs) = trimLeft cs := List.dropWhile_cons_of_pos hc
  cases h with
  | done hcs => exact .done (htrim.trans hcs)
  | token hcs hread hle hleft => exact .token (htrim.trans hcs) hread hle hleft

theorem lexes_indent (level : Nat) (h : Lexes cs ts) : Lexes (Document.indent level ++ cs) ts := by
  unfold Document.indent
  induction 2 * level with
  | zero => exact h
  | succ n ih => exact lexes_blank rfl ih

theorem lexes_token {t : Token} {left : List Char} (hc : isBlank c = false)
    (hread : readToken? (c :: rest) = some (t, left)) (hle : left.length ≤ rest.length)
    (h : Lexes left ts) : Lexes (c :: rest) (t :: ts) :=
  .token (List.dropWhile_cons_of_neg (by simp [hc])) hread hle h

theorem readToken?_cons (hc : c ≠ 'r') :
    readToken? (c :: rest) =
      if isLetterStart c then
        some (.ident false (c :: rest.takeWhile isLetter), rest.dropWhile isLetter)
      else if c.isDigit then readNumber (c :: rest)
      else if c = '"' then
        (readText? (.between false) rest).map fun (cs, left) => (.text cs, left)
      else if isMark c then some (.mark c, rest)
      else none := by
  conv_lhs => unfold readToken?
  split
  · rename_i heq
    cases heq
  · rename_i heq
    exact absurd (List.cons.inj heq).1 hc
  · rename_i d more _ heq
    cases heq
    rfl

theorem lexes_mark (hc : c ∈ ['$', ':', ',', '-', '(', ')', '[', ']', '{', '}'])
    (h : Lexes rest ts) : Lexes (c :: rest) (.mark c :: ts) := by
  have hall : ∀ c ∈ ['$', ':', ',', '-', '(', ')', '[', ']', '{', '}'], isBlank c = false ∧
      c ≠ 'r' ∧ isLetterStart c = false ∧ c.isDigit = false ∧ c ≠ '"' ∧ isMark c = true :=
    forall_mem_of_all (by decide)
  obtain ⟨hblank, hr, hletter, hdigit, hquote, hmark⟩ := hall c hc
  have hread : readToken? (c :: rest) = some (.mark c, rest) := by
    rw [readToken?_cons hr]
    simp [hletter, hdigit, hquote, hmark]
  exact lexes_token hblank hread (Nat.le_refl _) h

theorem lexes_name {name : List Char} (hname : isNameList name = true) (hrest : EndsName rest)
    (h : Lexes rest ts) : Lexes (name ++ rest) (.ident false name :: ts) := by
  obtain ⟨first, more, rfl, hfirst, hall⟩ := isNameList_eq_true hname
  obtain ⟨d, behind, rfl, hd⟩ := hrest
  have hends : ∀ d ∈ [',', ')', ']', '}', ':', '(', ' ', '\n'], isLetter d = false ∧ d ≠ '#' :=
    forall_mem_of_all (by decide)
  obtain ⟨hletter, hraw⟩ := hends d hd
  have hmore : ∀ c ∈ more, isLetter c = true :=
    fun c hc => isLetter_of_isNameChar (hall c (List.mem_cons_of_mem _ hc))
  have htake : (more ++ d :: behind).takeWhile isLetter = more := by
    rw [List.takeWhile_append_of_pos hmore, List.takeWhile_cons_of_neg (by simp [hletter]),
      List.append_nil]
  have hdrop : (more ++ d :: behind).dropWhile isLetter = d :: behind := by
    rw [List.dropWhile_append_of_pos hmore, List.dropWhile_cons_of_neg (by simp [hletter])]
  have hstart := isLetterStart_of_isNameStart hfirst
  have hblank := not_isBlank_of_isNameChar (isNameChar_of_isNameStart hfirst)
  have hread : readToken? (first :: (more ++ d :: behind)) =
      some (.ident false (first :: more), d :: behind) := by
    conv_lhs => unfold readToken?
    split
    · rename_i heq
      cases heq
    · -- the second character of a name is no `#`
      rename_i tail heq
      exfalso
      have htail := (List.cons.inj heq).2
      cases more with
      | nil => exact hraw (List.cons.inj htail).1
      | cons e more =>
        have he := hmore e List.mem_cons_self
        rw [(List.cons.inj htail).1] at he
        revert he
        decide
    · rename_i e tail _ heq
      cases heq
      rw [if_pos hstart, htake, hdrop]
  exact lexes_token hblank hread (by simp) h

theorem lexes_number (n : JsonNumber) (hrest : Delimited rest) (h : Lexes rest ts) :
    Lexes (Json.magnitude n ++ rest) (Json.numberToken n :: ts) := by
  have hread := Json.readToken?_magnitude n hrest
  obtain ⟨c, more, hmagnitude, hc⟩ := Json.magnitude_head n
  rw [hmagnitude, List.cons_append] at hread ⊢
  have hblank := not_isBlank_of_isNameChar ((isNameChar_iff c).mpr (Or.inr hc))
  exact lexes_token hblank hread (by simp) h

/-- Characters that a quoted text may hold: all but control characters without an escape of one
letter in both syntaxes. -/
def isQuotable (c : Char) : Bool := 0x20 ≤ c.toNat || c == '\n' || c == '\r' || c == '\t'

theorem readText?_escape (hc : isQuotable c = true) :
    readText? (.between false) (Json.escapeChar c ++ rest) =
      prepend c (readText? (.between false) rest) := by
  by_cases hquote : c = '"'
  · subst hquote; rfl
  by_cases hslash : c = '\\'
  · subst hslash; rfl
  by_cases hnewline : c = '\n'
  · subst hnewline; rfl
  by_cases hreturn : c = '\r'
  · subst hreturn; rfl
  by_cases htab : c = '\t'
  · subst htab; rfl
  have hcode : 0x20 ≤ c.toNat := by simpa [isQuotable, hnewline, hreturn, htab] using hc
  have hback : c ≠ '\x08' := by rintro rfl; revert hcode; decide
  have hfeed : c ≠ '\x0c' := by rintro rfl; revert hcode; decide
  have hlow : ¬ c.toNat < 0x20 := by omega
  have hescape : Json.escapeChar c = [c] := by
    simp only [Json.escapeChar, if_neg, hquote, hslash, hback, hfeed, hnewline, hreturn, htab, hlow,
      not_false_eq_true]
  rw [hescape, List.singleton_append]
  conv_lhs => unfold readText?
  simp only [Bool.false_and, Bool.false_eq_true, if_false, hquote, hslash]

theorem readText?_escaped (hcs : ∀ c ∈ cs, isQuotable c = true) :
    readText? (.between false) (cs.flatMap Json.escapeChar ++ '"' :: rest) = some (cs, rest) := by
  induction cs with
  | nil =>
    rw [List.flatMap_nil, List.nil_append]
    unfold readText?
    simp
  | cons c more ih =>
    rw [List.flatMap_cons, List.append_assoc, readText?_escape (hcs c List.mem_cons_self),
      ih fun d hd => hcs d (List.mem_cons_of_mem _ hd)]
    rfl

theorem lexes_text (hcs : ∀ c ∈ cs, isQuotable c = true) (h : Lexes rest ts) :
    Lexes (Json.printString cs ++ rest) (.text cs :: ts) := by
  have hread : readToken? ('"' :: (cs.flatMap Json.escapeChar ++ '"' :: rest)) =
      some (.text cs, rest) := by
    rw [readToken?_cons (by decide), readText?_escaped hcs]
    rfl
  rw [Json.printString, List.append_assoc, List.cons_append]
  exact lexes_token rfl hread (by simp; omega) h

mutual

def literalTokens : Json → List Token
  | .null => [.ident false "null".toList]
  | .bool true => [.ident false "true".toList]
  | .bool false => [.ident false "false".toList]
  | .number n =>
    if Json.isNegative n then [.mark '-', Json.numberToken n] else [Json.numberToken n]
  | .string s =>
    if Document.isVariable s.toList then [.mark '$', .ident false s.toList.tail]
    else [.text s.toList]
  | .array items => .mark '[' :: itemTokens items ++ [.mark ']']
  | .object fields => .mark '{' :: entryTokens fields ++ [.mark '}']

def itemTokens : List Json → List Token
  | [] => []
  | [item] => literalTokens item
  | item :: rest => literalTokens item ++ .mark ',' :: itemTokens rest

def entryTokens : List (String × Json) → List Token
  | [] => []
  | [(name, value)] => .ident false name.toList :: .mark ':' :: literalTokens value
  | (name, value) :: rest =>
    .ident false name.toList :: .mark ':' :: literalTokens value ++ .mark ',' :: entryTokens rest

end

def argumentTokens : Option Json → List Token
  | some (.object fields) => .mark '(' :: entryTokens fields ++ [.mark ')']
  | _ => []

mutual

def nodeTokens : Node → List Token
  | .leaf key arguments => .ident false key.toList :: argumentTokens arguments
  | .block key arguments children =>
    .ident false key.toList :: argumentTokens arguments ++ .mark '{' :: nodesTokens children ++
      [.mark '}']

def nodesTokens : List Node → List Token
  | [] => []
  | node :: rest => nodeTokens node ++ nodesTokens rest

end

/-- What a selection text can say: integers that fit in a signed word, texts that can be quoted, and
objects whose keys are different names. -/
def isWritable : Json → Bool
  | .number (.int n) => n.natAbs < signedLimit
  | .string s => s.toList.all isQuotable
  | .object fields =>
    fields.all (fun field => isName field.1) && decide (Entries.keys fields).Nodup
  | _ => true

theorem lexes_comma (h : Lexes rest ts) : Lexes (", ".toList ++ rest) (.mark ',' :: ts) :=
  lexes_mark (by decide) (lexes_blank rfl h)

theorem lexes_colon (h : Lexes rest ts) : Lexes (": ".toList ++ rest) (.mark ':' :: ts) :=
  lexes_mark (by decide) (lexes_blank rfl h)

theorem isName_of_isWritable {name : String} {value : Json} {fields : List (String × Json)}
    (h : ((name, value) :: fields).all (fun field => isName field.1) = true) :
    isNameList name.toList = true ∧ fields.all (fun field => isName field.1) = true := by
  rw [List.all_cons, Bool.and_eq_true] at h
  exact h

mutual

theorem lexes_literal (value : Json) (hvalue : value.all isWritable = true) {rest : List Char}
    {ts : List Token} (hrest : Delimited rest) (h : Lexes rest ts) :
    Lexes (Document.printLiteral value ++ rest) (literalTokens value ++ ts) := by
  match value with
  | .null => exact lexes_name (by decide) hrest.endsName h
  | .bool true => exact lexes_name (by decide) hrest.endsName h
  | .bool false => exact lexes_name (by decide) hrest.endsName h
  | .number n =>
    have hnumber := lexes_number n hrest h
    simp only [Document.printLiteral, literalTokens, Json.printNumber_eq]
    split_ifs with hsign
    · exact lexes_mark (by decide) hnumber
    · exact hnumber
  | .string s =>
    simp only [Document.printLiteral, literalTokens]
    split_ifs with hvariable
    · obtain ⟨hdollar, hname⟩ := Document.isVariable_eq_true hvariable
      rw [hdollar]
      exact lexes_mark (by decide) (lexes_name hname hrest.endsName h)
    · have hquotable : s.toList.all isQuotable = true := Json.all_self hvalue
      exact lexes_text (List.all_eq_true.mp hquotable) h
  | .array items =>
    have hclose : Lexes (']' :: rest) (.mark ']' :: ts) := lexes_mark (by decide) h
    have hitems := lexes_items items (Json.all_array hvalue) (delimited_cons (by decide)) hclose
    simp only [Document.printLiteral, literalTokens, List.cons_append, List.append_assoc]
    exact lexes_mark (by decide) hitems
  | .object fields =>
    have hclose : Lexes ('}' :: rest) (.mark '}' :: ts) := lexes_mark (by decide) h
    have hnames := (Bool.and_eq_true_iff.mp (Json.all_self hvalue)).1
    have hfields := lexes_entries fields hnames (Json.all_object hvalue)
      (delimited_cons (by decide)) hclose
    simp only [Document.printLiteral, literalTokens, List.cons_append, List.append_assoc]
    exact lexes_mark (by decide) hfields

theorem lexes_items (items : List Json) (hitems : Json.allItems isWritable items = true)
    {rest : List Char} {ts : List Token} (hrest : Delimited rest) (h : Lexes rest ts) :
    Lexes (Document.printItems items ++ rest) (itemTokens items ++ ts) := by
  match items with
  | [] => exact h
  | [item] => exact lexes_literal item (Json.allItems_cons hitems).1 hrest h
  | item :: next :: more =>
    obtain ⟨hitem, hmore⟩ := Json.allItems_cons hitems
    have htail := lexes_comma (lexes_items (next :: more) hmore hrest h)
    have hhead := lexes_literal item hitem (delimited_cons (by decide)) htail
    simp only [Document.printItems, itemTokens, List.append_assoc, List.cons_append]
    exact hhead

theorem lexes_entries (fields : List (String × Json))
    (hnames : fields.all (fun field => isName field.1) = true)
    (hfields : Json.allFields isWritable fields = true) {rest : List Char} {ts : List Token}
    (hrest : Delimited rest) (h : Lexes rest ts) :
    Lexes (Document.printEntries fields ++ rest) (entryTokens fields ++ ts) := by
  match fields with
  | [] => exact h
  | [(name, value)] =>
    have hvalue := lexes_literal value (Json.allFields_cons hfields).1 hrest h
    have hentry := lexes_name (isName_of_isWritable hnames).1 (endsName_cons (by decide))
      (lexes_colon hvalue)
    simp only [Document.printEntries, entryTokens, List.append_assoc, List.cons_append]
    exact hentry
  | (name, value) :: next :: more =>
    obtain ⟨hname, hnames'⟩ := isName_of_isWritable hnames
    obtain ⟨hvalue, hmore⟩ := Json.allFields_cons hfields
    have htail := lexes_comma (lexes_entries (next :: more) hnames' hmore hrest h)
    have hhead := lexes_colon (lexes_literal value hvalue (delimited_cons (by decide)) htail)
    have hentry := lexes_name hname (endsName_cons (by decide)) hhead
    simp only [Document.printEntries, entryTokens, List.append_assoc, List.cons_append]
    exact hentry

end

def isWritableNode (node : Node) : Bool :=
  node.isPrintable fun fields => !fields.isEmpty && (Json.object fields).all isWritable

theorem lexes_arguments {arguments : Option Json}
    (harguments : arguments = none ∨ ∃ fields, arguments = some (.object fields) ∧ fields ≠ [] ∧
      (Json.object fields).all isWritable = true)
    (hrest : EndsName rest) (h : Lexes rest ts) :
    Lexes (Document.printArguments arguments ++ rest) (argumentTokens arguments ++ ts) ∧
      EndsName (Document.printArguments arguments ++ rest) := by
  rcases harguments with rfl | ⟨fields, rfl, hne, hall⟩
  · exact ⟨h, hrest⟩
  · have hprint : Document.printArguments (some (.object fields)) =
        '(' :: Document.printEntries fields ++ [')'] := by
      cases fields with
      | nil => exact absurd rfl hne
      | cons field more => rfl
    have hclose : Lexes (')' :: rest) (.mark ')' :: ts) := lexes_mark (by decide) h
    have hnames := (Bool.and_eq_true_iff.mp (Json.all_self hall)).1
    have hfields := lexes_entries fields hnames (Json.all_object hall) (delimited_cons (by decide))
      hclose
    rw [hprint]
    simp only [argumentTokens, List.cons_append, List.append_assoc]
    exact ⟨lexes_mark (by decide) hfields, endsName_cons (by decide)⟩

theorem isWritableNode_eq_true {node : Node} (h : isWritableNode node = true) :
    isNameList node.key.toList = true ∧
      (node.arguments = none ∨ ∃ fields, node.arguments = some (.object fields) ∧ fields ≠ [] ∧
        (Json.object fields).all isWritable = true) ∧
      node.children? ≠ some [] := by
  obtain ⟨hkey, harguments, hchildren⟩ := Node.isPrintable_eq_true h
  refine ⟨hkey, ?_, hchildren⟩
  rcases harguments with hnone | ⟨fields, hfields, hall⟩
  · exact Or.inl hnone
  · rw [Bool.and_eq_true, Bool.not_eq_true', List.isEmpty_eq_false_iff] at hall
    exact Or.inr ⟨fields, hfields, hall.1, hall.2⟩

theorem endsName_nodes (level : Nat) (nodes : List Node) (hrest : EndsName rest) :
    EndsName (Document.printNodes level nodes ++ rest) := by
  cases nodes with
  | nil => exact hrest
  | cons node more => exact endsName_cons (by decide)

mutual

theorem lexes_node (level : Nat) (node : Node) (hnode : node.all isWritableNode = true)
    {rest : List Char} {ts : List Token} (hrest : EndsName rest) (h : Lexes rest ts) :
    Lexes (Document.printNode level node ++ rest) (nodeTokens node ++ ts) := by
  obtain ⟨hkey, harguments, -⟩ := isWritableNode_eq_true (Node.all_self hnode)
  match node with
  | .leaf key arguments =>
    obtain ⟨hlexes, hends⟩ := lexes_arguments harguments hrest h
    have hleaf := lexes_name hkey hends hlexes
    simp only [Document.printNode, nodeTokens, List.append_assoc, List.cons_append]
    exact hleaf
  | .block key arguments children =>
    have hclose : Lexes ('\n' :: (Document.indent level ++ '}' :: rest)) (.mark '}' :: ts) :=
      lexes_blank rfl (lexes_indent level (lexes_mark (by decide) h))
    have hchildren := lexes_nodes (level + 1) children (Node.all_block hnode)
      (endsName_cons (by decide)) hclose
    have hopen : Lexes (" \x7b".toList ++ _) (.mark '{' :: _) :=
      lexes_blank rfl (lexes_mark (by decide) hchildren)
    obtain ⟨hlexes, hends⟩ := lexes_arguments harguments (endsName_cons (by decide)) hopen
    have hblock := lexes_name hkey hends hlexes
    simp only [Document.printNode, nodeTokens, List.append_assoc, List.cons_append]
    exact hblock

theorem lexes_nodes (level : Nat) (nodes : List Node)
    (hnodes : Node.allNodes isWritableNode nodes = true) {rest : List Char} {ts : List Token}
    (hrest : EndsName rest) (h : Lexes rest ts) :
    Lexes (Document.printNodes level nodes ++ rest) (nodesTokens nodes ++ ts) := by
  match nodes with
  | [] => exact h
  | node :: more =>
    obtain ⟨hnode, hmore⟩ := Node.allNodes_cons hnodes
    have htail := lexes_nodes level more hmore hrest h
    have hhead := lexes_node level node hnode (endsName_nodes level more hrest) htail
    simp only [Document.printNodes, nodesTokens, List.append_assoc, List.cons_append]
    exact lexes_blank rfl (lexes_indent level hhead)

end

end GraphQLClient.SelectionText
