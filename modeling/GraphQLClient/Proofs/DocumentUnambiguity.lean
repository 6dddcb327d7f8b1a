import GraphQLClient.Proofs.LiteralUnambiguity
import GraphQLClient.Proofs.TypeExpressions

/-!
# Documents are unambiguous

A document tells what it was printed from: the kind and the name of the operation, its variables in
order, and its selection, in which no arguments and an empty object of arguments are the same.
-/
namespace GraphQLClient

def plainArguments : Option Json → Option Json
  | some (.object []) => none
  | arguments => arguments

mutual

def Node.plain : Node → Node
  | .leaf key arguments => .leaf key (plainArguments arguments)
  | .block key arguments children =>
    .block key (plainArguments arguments) (Node.plainNodes children)

def Node.plainNodes : List Node → List Node
  | [] => []
  | node :: rest => node.plain :: Node.plainNodes rest

end

namespace Document

open Text

/-- Nodes with names for keys, at every depth of their arguments too. -/
def isNamedNode (node : Node) : Bool :=
  node.isPrintable fun fields => (Json.object fields).all Json.hasNames

def AfterNode (rest : List Char) : Prop := ∃ c more, rest = c :: more ∧ c ∈ [' ', '\n']

section Arguments

variable {a b : Option Json} {r s : List Char}

theorem printArguments_cases
    (ha : a = none ∨ ∃ fields, a = some (.object fields) ∧
      (Json.object fields).all Json.hasNames = true) :
    (plainArguments a = none ∧ printArguments a = []) ∨
      ∃ fields, plainArguments a = some (.object fields) ∧
        printArguments a = '(' :: printEntries fields ++ [')'] ∧
        (Json.object fields).all Json.hasNames = true := by
  rcases ha with rfl | ⟨fields, rfl, hall⟩
  · exact Or.inl ⟨rfl, rfl⟩
  · cases fields with
    | nil => exact Or.inl ⟨rfl, rfl⟩
    | cons field more => exact Or.inr ⟨field :: more, rfl, rfl, hall⟩

theorem AfterNode.ne_open (h : AfterNode r) (more : List Char) : r ≠ '(' :: more := by
  obtain ⟨c, tail, rfl, hc⟩ := h
  rintro ⟨⟩
  revert hc
  decide

theorem AfterNode.endsName (h : AfterNode r) : EndsName r := by
  obtain ⟨c, more, rfl, hc⟩ := h
  have hall : ∀ c ∈ [' ', '\n'], c ∈ [',', ')', ']', '}', ':', '(', ' ', '\n'] :=
    forall_mem_of_all (by decide)
  exact ⟨c, more, rfl, hall c hc⟩

theorem endsName_arguments (a : Option Json) (hr : EndsName r) :
    EndsName (printArguments a ++ r) := by
  unfold printArguments
  split
  · exact hr
  · exact hr
  · exact endsName_cons (by decide)
  · exact endsName_cons (by decide)

theorem printArguments_inj
    (ha : a = none ∨ ∃ fields, a = some (.object fields) ∧
      (Json.object fields).all Json.hasNames = true)
    (hb : b = none ∨ ∃ fields, b = some (.object fields) ∧
      (Json.object fields).all Json.hasNames = true)
    (hr : AfterNode r) (hs : AfterNode s) (h : printArguments a ++ r = printArguments b ++ s) :
    plainArguments a = plainArguments b ∧ r = s := by
  rcases printArguments_cases ha with ⟨hpa, ha⟩ | ⟨xs, hpa, ha, hxs⟩
  · rcases printArguments_cases hb with ⟨hpb, hb⟩ | ⟨ys, hpb, hb, hys⟩
    · rw [ha, hb] at h
      exact ⟨hpa.trans hpb.symm, h⟩
    · rw [ha, hb] at h
      exact absurd h (hr.ne_open _)
  · rcases printArguments_cases hb with ⟨hpb, hb⟩ | ⟨ys, hpb, hb, hys⟩
    · rw [ha, hb] at h
      exact absurd h.symm (hs.ne_open _)
    · rw [ha, hb] at h
      simp only [List.cons_append, List.append_assoc, List.nil_append] at h
      obtain ⟨rfl, hrest⟩ := printEntries_inj xs ys (Json.all_self hxs) (Json.all_object hxs)
        (Json.all_self hys) (Json.all_object hys) (by decide) (List.cons.inj h).2
      exact ⟨hpa.trans hpb.symm, hrest⟩

end Arguments

def closing (level : Nat) (rest : List Char) : List Char := '\n' :: (indent level ++ '}' :: rest)

theorem indent_succ (level : Nat) : indent (level + 1) = indent level ++ [' ', ' '] := by
  rw [indent, Nat.mul_add, List.replicate_add]
  rfl

theorem printNodes_cons (level : Nat) (node : Node) (nodes : List Node) (rest : List Char) :
    printNodes level (node :: nodes) ++ rest =
      '\n' :: (indent level ++ (printNode level node ++ (printNodes level nodes ++ rest))) := by
  simp [printNodes]

def OnNewLine (rest : List Char) : Prop := ∃ more, rest = '\n' :: more

theorem onNewLine_nodes (level : Nat) (nodes : List Node) (outer : Nat) (rest : List Char) :
    OnNewLine (printNodes level nodes ++ closing outer rest) := by
  cases nodes with
  | nil => exact ⟨_, rfl⟩
  | cons node more => exact ⟨_, printNodes_cons level node more _⟩

def selectionPart (level : Nat) (rest : List Char) : Node → List Char
  | .leaf _ _ => rest
  | .block _ _ children =>
    " \x7b".toList ++ (printNodes (level + 1) children ++ closing level rest)

theorem printNode_eq (level : Nat) (node : Node) (rest : List Char) :
    printNode level node ++ rest =
      node.key.toList ++ (printArguments node.arguments ++ selectionPart level rest node) := by
  cases node with
  | leaf key arguments => simp [printNode, selectionPart, Node.key, Node.arguments]
  | block key arguments children =>
    simp [printNode, selectionPart, closing, Node.key, Node.arguments]

theorem afterNode_selectionPart (level : Nat) (node : Node) {rest : List Char}
    (hrest : OnNewLine rest) : AfterNode (selectionPart level rest node) := by
  cases node with
  | leaf key arguments =>
    obtain ⟨more, rfl⟩ := hrest
    exact ⟨'\n', more, rfl, by decide⟩
  | block key arguments children => exact ⟨' ', _, rfl, by decide⟩

/-- A brace opens on the line of its node. -/
theorem selectionPart_ne (level : Nat) (key : String) (arguments : Option Json)
    (children : List Node) {rest more : List Char} (hmore : OnNewLine more) :
    selectionPart level rest (.block key arguments children) ≠ more := by
  obtain ⟨tail, rfl⟩ := hmore
  intro h
  exact absurd (List.cons.inj h).1 (by decide)

/-- A further node is indented deeper than the closing brace. -/
theorem printNodes_ne_closing (level : Nat) (node : Node) (nodes : List Node)
    (rest more : List Char) :
    printNodes (level + 1) (node :: nodes) ++ rest ≠ closing level more := by
  intro h
  rw [printNodes_cons, closing, indent_succ, List.append_assoc] at h
  have hbrace := List.append_cancel_left (List.cons.inj h).2
  exact absurd (List.cons.inj hbrace).1 (by decide)

mutual

theorem printNode_inj (level : Nat) (n m : Node) (hn : n.all isNamedNode = true)
    (hm : m.all isNamedNode = true) {r s : List Char} (hr : OnNewLine r) (hs : OnNewLine s)
    (h : printNode level n ++ r = printNode level m ++ s) : n.plain = m.plain ∧ r = s := by
  obtain ⟨hkey, harguments, -⟩ := Node.isPrintable_eq_true (Node.all_self hn)
  obtain ⟨hkey', harguments', -⟩ := Node.isPrintable_eq_true (Node.all_self hm)
  have hpart := afterNode_selectionPart level n hr
  have hpart' := afterNode_selectionPart level m hs
  rw [printNode_eq, printNode_eq] at h
  obtain ⟨hkeys, hmore⟩ := name_inj hkey hkey' (endsName_arguments _ hpart.endsName)
    (endsName_arguments _ hpart'.endsName) h
  obtain ⟨hplain, hselection⟩ := printArguments_inj harguments harguments' hpart hpart' hmore
  have hkeys' : n.key = m.key := String.toList_injective hkeys
  match n, m with
  | .leaf key arguments, .leaf key' arguments' =>
    exact ⟨congrArg₂ Node.leaf hkeys' hplain, hselection⟩
  | .leaf key arguments, .block key' arguments' children' =>
    exact absurd hselection.symm (selectionPart_ne level key' arguments' children' hr)
  | .block key arguments children, .leaf key' arguments' =>
    exact absurd hselection (selectionPart_ne level key arguments children hs)
  | .block key arguments children, .block key' arguments' children' =>
    obtain ⟨hchildren, hrest⟩ := printNodes_inj level children children' (Node.all_block hn)
      (Node.all_block hm) (List.append_cancel_left hselection)
    refine ⟨?_, hrest⟩
    change key = key' at hkeys'
    change plainArguments arguments = plainArguments arguments' at hplain
    rw [Node.plain, Node.plain, hkeys', hplain, hchildren]

theorem printNodes_inj (level : Nat) (ns ms : List Node)
    (hns : Node.allNodes isNamedNode ns = true) (hms : Node.allNodes isNamedNode ms = true)
    {r s : List Char}
    (h : printNodes (level + 1) ns ++ closing level r =
      printNodes (level + 1) ms ++ closing level s) :
    Node.plainNodes ns = Node.plainNodes ms ∧ r = s := by
  match ns, ms with
  | [], [] =>
    have hrest := List.append_cancel_left (List.cons.inj h).2
    exact ⟨rfl, (List.cons.inj hrest).2⟩
  | [], m :: ms => exact absurd h.symm (printNodes_ne_closing level m ms _ r)
  | n :: ns, [] => exact absurd h (printNodes_ne_closing level n ns _ s)
  | n :: ns, m :: ms =>
    obtain ⟨hn, hns'⟩ := Node.allNodes_cons hns
    obtain ⟨hm, hms'⟩ := Node.allNodes_cons hms
    rw [printNodes_cons, printNodes_cons] at h
    have hnode := List.append_cancel_left (List.cons.inj h).2
    obtain ⟨hplain, hmore⟩ := printNode_inj (level + 1) n m hn hm (onNewLine_nodes _ ns _ r)
      (onNewLine_nodes _ ms _ s) hnode
    obtain ⟨hplains, hrest⟩ := printNodes_inj level ns ms hns' hms' hmore
    exact ⟨by rw [Node.plainNodes, Node.plainNodes, hplain, hplains], hrest⟩

end

/-- A variable has a name and a type that can be read. -/
def WellDeclared (entry : String × String) : Prop :=
  isName entry.1 = true ∧ ∃ type, TypeExpr.parse entry.2 = .ok type

section Declarations

variable {ds es : List (String × String)} {r s : List Char}

theorem joined_cons (item : List Char) (items : List (List Char)) (rest : List Char) :
    joined ", ".toList (item :: items) ++ ')' :: rest =
      item ++ behind (joined ", ".toList items) items.isEmpty ')' rest := by
  cases items with
  | nil => simp [joined, behind]
  | cons next more => simp [joined, behind]

theorem joined_of_isEmpty {items : List (List Char)} (h : items.isEmpty = true) :
    joined ", ".toList items = [] := by
  rw [List.isEmpty_iff.mp h]
  rfl

theorem behind_not_isExprChar {others rest : List Char} {last : Bool} :
    ∀ c more, behind others last ')' rest = c :: more → TypeExpr.isExprChar c = false := by
  intro c more h
  cases last with
  | true =>
    cases h
    decide
  | false =>
    cases h
    decide

theorem declarations_inj (hds : ∀ d ∈ ds, WellDeclared d) (hes : ∀ e ∈ es, WellDeclared e)
    (h : joined ", ".toList (ds.map printDeclaration) ++ ')' :: r =
      joined ", ".toList (es.map printDeclaration) ++ ')' :: s) : ds = es ∧ r = s := by
  induction ds generalizing es with
  | nil =>
    cases es with
    | nil => exact ⟨rfl, (List.cons.inj h).2⟩
    | cons e es =>
      rw [List.map_cons, joined_cons] at h
      exact absurd (List.cons.inj h).1 (by decide)
  | cons d ds ih =>
    cases es with
    | nil =>
      rw [List.map_cons, joined_cons] at h
      exact absurd (List.cons.inj h).1 (by decide)
    | cons e es =>
      obtain ⟨hd, hds'⟩ := List.forall_mem_cons.mp hds
      obtain ⟨he, hes'⟩ := List.forall_mem_cons.mp hes
      obtain ⟨hdname, dtype, hdtype⟩ := hd
      obtain ⟨hename, etype, hetype⟩ := he
      rw [List.map_cons, List.map_cons, joined_cons, joined_cons] at h
      simp only [printDeclaration, List.cons_append, List.append_assoc] at h
      obtain ⟨hnames, hmore⟩ := name_inj hdname hename (endsName_colon _) (endsName_colon _)
        (List.cons.inj h).2
      obtain ⟨htypes, hbehind⟩ := run_inj (TypeExpr.parse_isExprChar hdtype)
        (TypeExpr.parse_isExprChar hetype) behind_not_isExprChar behind_not_isExprChar
        (List.append_cancel_left hmore)
      obtain ⟨rfl, hrest⟩ := ih hds' hes'
        (behind_inj (by decide) joined_of_isEmpty joined_of_isEmpty hbehind)
      have hentry : d = e :=
        Prod.ext (String.toList_injective hnames) (String.toList_injective htypes)
      exact ⟨congrArg (· :: ds) hentry, hrest⟩

theorem parenthesized_inj (hds : ∀ d ∈ ds, WellDeclared d) (hes : ∀ e ∈ es, WellDeclared e)
    (h : parenthesized (ds.map printDeclaration) ++ ' ' :: r =
      parenthesized (es.map printDeclaration) ++ ' ' :: s) : ds = es ∧ r = s := by
  have hparen : ∀ d : String × String, ∀ others t,
      parenthesized ((d :: others).map printDeclaration) ++ ' ' :: t =
        '(' :: (joined ", ".toList ((d :: others).map printDeclaration) ++ ')' :: ' ' :: t) := by
    intro d others t
    simp [parenthesized]
  cases ds with
  | nil =>
    cases es with
    | nil => exact ⟨rfl, (List.cons.inj h).2⟩
    | cons e es =>
      rw [hparen] at h
      exact absurd (List.cons.inj h).1 (by decide)
  | cons d ds =>
    cases es with
    | nil =>
      rw [hparen] at h
      exact absurd (List.cons.inj h).1 (by decide)
    | cons e es =>
      rw [hparen, hparen] at h
      obtain ⟨heq, hrest⟩ := declarations_inj hds hes (List.cons.inj h).2
      exact ⟨heq, (List.cons.inj hrest).2⟩

theorem endsName_parenthesized (items : List (List Char)) (rest : List Char) :
    EndsName (parenthesized items ++ ' ' :: rest) := by
  cases items with
  | nil => exact endsName_cons (by decide)
  | cons item items => exact endsName_cons (by decide)

end Declarations

theorem keyword_inj {k l : OperationKind} {r s : List Char}
    (h : k.keyword.toList ++ r = l.keyword.toList ++ s) : k = l := by
  have hfirst : k.keyword.toList.head? = l.keyword.toList.head? := by
    have hhead := congrArg List.head? h
    rwa [List.head?_append_of_ne_nil _ (by cases k <;> exact List.cons_ne_nil _ _),
      List.head?_append_of_ne_nil _ (by cases l <;> exact List.cons_ne_nil _ _)] at hhead
  cases k <;> cases l <;> revert hfirst <;> decide

def closingPart (nodes : List Node) : List Char :=
  (if nodes.isEmpty then [] else ' ' :: printSelection 1 nodes) ++ "\n\x7d".toList

theorem closingPart_cons (node : Node) (nodes : List Node) :
    closingPart (node :: nodes) =
      " \x7b".toList ++ (printNodes 2 (node :: nodes) ++ closing 1 "\n\x7d".toList) := by
  simp [closingPart, printSelection, closing]

theorem closingPart_inj {ns ms : List Node} (hns : Node.allNodes isNamedNode ns = true)
    (hms : Node.allNodes isNamedNode ms = true) (h : closingPart ns = closingPart ms) :
    Node.plainNodes ns = Node.plainNodes ms := by
  cases ns with
  | nil =>
    cases ms with
    | nil => rfl
    | cons m ms =>
      rw [closingPart_cons] at h
      exact absurd (List.cons.inj h).1 (by decide)
  | cons n ns =>
    rw [closingPart_cons] at h
    cases ms with
    | nil => exact absurd (List.cons.inj h).1 (by decide)
    | cons m ms =>
      rw [closingPart_cons] at h
      exact (printNodes_inj 1 (n :: ns) (m :: ms) hns hms (List.append_cancel_left h)).1

theorem printArguments_plain (arguments : Option Json) :
    printArguments (plainArguments arguments) = printArguments arguments := by
  unfold plainArguments
  split
  · rfl
  · rfl

mutual

theorem printNode_plain (level : Nat) (node : Node) :
    printNode level node.plain = printNode level node := by
  match node with
  | .leaf key arguments => rw [Node.plain, printNode, printNode, printArguments_plain]
  | .block key arguments children =>
    rw [Node.plain, printNode, printNode, printArguments_plain,
      printNodes_plain (level + 1) children]

theorem printNodes_plain (level : Nat) (nodes : List Node) :
    printNodes level (Node.plainNodes nodes) = printNodes level nodes := by
  match nodes with
  | [] => rfl
  | node :: more =>
    rw [Node.plainNodes, printNodes, printNodes, printNode_plain level node,
      printNodes_plain level more]

end

theorem closingPart_plain (nodes : List Node) :
    closingPart (Node.plainNodes nodes) = closingPart nodes := by
  cases nodes with
  | nil => rfl
  | cons node more =>
    have hplain := printNodes_plain 2 (node :: more)
    rw [Node.plainNodes] at hplain ⊢
    rw [closingPart_cons, closingPart_cons, hplain]

theorem printList_eq (kind : OperationKind) (name : String) (declared : List (String × String))
    (nodes : List Node) :
    printList kind name declared nodes = kind.keyword.toList ++ ' ' :: (name.toList ++
      (parenthesized (declared.map printDeclaration) ++ ' ' :: ("\x7b\n  ".toList ++ (name.toList ++
        (parenthesized (declared.map printPassing) ++ closingPart nodes))))) := by
  simp [printList, closingPart]

/-- Two documents are the same text exactly when they ask for the same: the kind, the name, the
variables with their types, and the nodes, where an empty object of arguments is none. -/
theorem document_unambiguous {kind kind' : OperationKind} {name name' : String}
    {declared declared' : OrderedMap String} {nodes nodes' : List Node}
    (hname : isName name = true) (hname' : isName name' = true)
    (hdeclared : ∀ entry ∈ declared.entries, WellDeclared entry)
    (hdeclared' : ∀ entry ∈ declared'.entries, WellDeclared entry)
    (hnodes : Node.allNodes isNamedNode nodes = true)
    (hnodes' : Node.allNodes isNamedNode nodes' = true) :
    print kind name declared nodes = print kind' name' declared' nodes' ↔
      kind = kind' ∧ name = name' ∧ declared.entries = declared'.entries ∧
        Node.plainNodes nodes = Node.plainNodes nodes' := by
  constructor
  · intro h
    have hlist : printList kind name declared.entries nodes =
        printList kind' name' declared'.entries nodes' := by
      simpa [print] using congrArg String.toList h
    rw [printList_eq, printList_eq] at hlist
    obtain rfl := keyword_inj hlist
    obtain ⟨hnames, hheader⟩ := name_inj hname hname' (endsName_parenthesized _ _)
      (endsName_parenthesized _ _) (List.cons.inj (List.append_cancel_left hlist)).2
    obtain rfl := String.toList_injective hnames
    obtain ⟨hentries, hselection⟩ := parenthesized_inj hdeclared hdeclared' hheader
    rw [hentries] at hselection
    have hclosing := List.append_cancel_left (List.append_cancel_left
      (List.append_cancel_left hselection))
    exact ⟨rfl, rfl, hentries, closingPart_inj hnodes hnodes' hclosing⟩
  · rintro ⟨rfl, rfl, hentries, hplain⟩
    rw [print, print, printList_eq, printList_eq, hentries, ← closingPart_plain nodes, hplain,
      closingPart_plain]

def listed : OrderedMap String := .ofList [("ids", "[ID!]")]

theorem wellDeclared_listed : ∀ entry ∈ listed.entries, WellDeclared entry := by
  intro entry hentry
  have hsingle : listed.entries = [("ids", "[ID!]")] := rfl
  rw [hsingle, List.mem_singleton] at hentry
  subst hentry
  have hreads : (TypeExpr.parse "[ID!]").toOption.isSome = true := by decide +kernel
  refine ⟨by decide, ?_⟩
  cases h : TypeExpr.parse "[ID!]" with
  | ok type => exact ⟨type, rfl⟩
  | error error =>
    rw [h] at hreads
    cases hreads

def forgedSelection : List Node :=
  [.leaf "item" (some (.object [("a", .string "1\", b: \"$ids")])),
    .leaf "more" (some (.object []))]

def honestSelection : List Node :=
  [.leaf "item" (some (.object [("a", .string "1"), ("b", .string "$ids")])), .leaf "more" none]

theorem forged_unambiguous :
    print .query "list" listed forgedSelection ≠ print .query "list" listed honestSelection ∧
      print .query "list" listed [.leaf "more" (some (.object []))] =
        print .query "list" listed [.leaf "more" none] := by
  have hforged : Node.allNodes isNamedNode forgedSelection = true := by decide
  have hhonest : Node.allNodes isNamedNode honestSelection = true := by decide
  refine ⟨?_, ?_⟩
  · intro h
    have hsame := ((document_unambiguous (by decide) (by decide) wellDeclared_listed
      wellDeclared_listed hforged hhonest).mp h).2.2.2
    simp [forgedSelection, honestSelection, Node.plainNodes, Node.plain, plainArguments] at hsame
  · exact (document_unambiguous (by decide) (by decide) wellDeclared_listed wellDeclared_listed
      (by decide) (by decide)).mpr ⟨rfl, rfl, rfl, rfl⟩

end Document

end GraphQLClient
