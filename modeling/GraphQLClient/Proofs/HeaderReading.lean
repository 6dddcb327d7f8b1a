import GraphQLClient.Document.Reader
import GraphQLClient.Proofs.ArgumentReading
import GraphQLClient.Proofs.DocumentUnambiguity

/-!
# Printed headers read back

A server reads the header of a printed document and the call in it as what they were printed from,
as long as all names are names.
-/
namespace GraphQLClient.Document

variable {rest : List Char}

/-- What stands behind a type begins with a mark, and it is not the `!` that would belong to the
type. -/
def EndsType (rest : List Char) : Prop :=
  (∃ c more, rest = c :: more ∧ Text.isNameChar c = false) ∧ ∀ more, skipIgnored rest ≠ '!' :: more

theorem skipIgnored_name {name : String} (hname : Text.isName name = true) (rest : List Char) :
    skipIgnored (name.toList ++ rest) = name.toList ++ rest := by
  obtain ⟨first, others, hfirst, hstart, -⟩ := Text.isNameList_eq_true hname
  rw [hfirst]
  exact skipIgnored_token (beginsToken_of_isNameStart hstart) _

section Types

theorem readBang_bang (nullable : Bool) (hrest : EndsType rest) :
    readBang ((TypeRef.bang nullable).toList ++ rest) = (nullable, rest) := by
  cases nullable with
  | false => rfl
  | true =>
    unfold readBang
    split
    · rename_i heq
      exact absurd heq (hrest.2 _)
    · rfl

/-- Behind a name stands the `!` of its type, or what ends the type. -/
theorem readName?_bang {name : String} (hname : Text.isName name = true) (nullable : Bool)
    (hrest : EndsType rest) :
    readName? (name.toList ++ ((TypeRef.bang nullable).toList ++ rest)) =
      some (name, (TypeRef.bang nullable).toList ++ rest) := by
  have hread : ∀ {c}, Text.isNameChar c = false → ∀ more,
      readName? (name.toList ++ c :: more) = some (name, c :: more) := by
    intro c hc more
    rw [readName?_stop hname hc, String.ofList_toList]
  cases nullable with
  | false => exact hread (by decide) rest
  | true =>
    obtain ⟨⟨c, more, rfl, hc⟩, -⟩ := hrest
    exact hread hc more

theorem readType?_named {name : String} (hname : Text.isName name = true) (nullable : Bool)
    (hrest : EndsType rest) (fuel : Nat) :
    readType? (fuel + 1) (name.toList ++ ((TypeRef.bang nullable).toList ++ rest)) =
      some (.named name nullable, rest) := by
  have hread := readName?_bang hname nullable hrest
  obtain ⟨first, others, hfirst, hstart, -⟩ := Text.isNameList_eq_true hname
  have hbracket : first ≠ '[' := by
    rintro rfl
    cases hstart
  rw [readType?, skipIgnored_name hname]
  rw [hfirst, List.cons_append] at hread ⊢
  split
  · rename_i heq
    exact absurd (List.cons.inj heq).1 hbracket
  · simp only [hread, Option.bind_eq_bind, Option.bind_some, readBang_bang nullable hrest]
    rfl

def TypeLiteral.ofRef (t : TypeRef) : TypeLiteral :=
  match t.wrapping with
  | .single nullable => .named t.core nullable
  | .list itemsNullable nullable => .list (.named t.core itemsNullable) nullable

theorem endsType_bracket (rest : List Char) : EndsType (']' :: rest) :=
  ⟨⟨']', rest, rfl, by decide⟩, by simp [skipIgnored_token (c := ']') (by decide)]⟩

/-- A server reads a printed type back and stops at its end. -/
theorem readType?_print {t : TypeRef} (hcore : Text.isName t.core = true) (hrest : EndsType rest)
    (fuel : Nat) : readType? (fuel + 2) (t.print.toList ++ rest) = some (.ofRef t, rest) := by
  obtain ⟨core, wrapping, span⟩ := t
  cases wrapping with
  | single nullable =>
    have hread := readType?_named hcore nullable hrest (fuel + 1)
    simpa [TypeRef.print, TypeLiteral.ofRef] using hread
  | list itemsNullable nullable =>
    have hitems := readType?_named hcore itemsNullable
      (endsType_bracket ((TypeRef.bang nullable).toList ++ rest)) fuel
    have hprint : (TypeRef.print ⟨core, .list itemsNullable nullable, span⟩).toList ++ rest =
        '[' :: (core.toList ++ ((TypeRef.bang itemsNullable).toList ++
          ']' :: ((TypeRef.bang nullable).toList ++ rest))) := by
      simp [TypeRef.print]
    rw [hprint, readType?, skipIgnored_token (by decide)]
    simp only [hitems, Option.bind_eq_bind, Option.bind_some]
    rw [skipIgnored_token (by decide)]
    simp only [readBang_bang nullable hrest]
    rfl

end Types

structure Variable where
  name : String
  type : TypeRef

namespace Variable

structure IsNamed (v : Variable) : Prop where
  name : Text.isName v.name = true
  core : Text.isName v.type.core = true

def entry (v : Variable) : String × String := (v.name, v.type.print)

def read (v : Variable) : String × TypeLiteral := (v.name, .ofRef v.type)

end Variable

section Declarations

variable {fuel : Nat} {cs ds : List Char} {vs : List Variable}

theorem readType?_congr (h : skipIgnored cs = skipIgnored ds) :
    readType? fuel cs = readType? fuel ds := by
  cases fuel with
  | zero => rfl
  | succ fuel => rw [readType?, readType?, h]

theorem readDeclarations?_congr (h : skipIgnored cs = skipIgnored ds) :
    readDeclarations? fuel cs = readDeclarations? fuel ds := by
  cases fuel with
  | zero => rfl
  | succ fuel => rw [readDeclarations?, readDeclarations?, h]

def declarations (vs : List Variable) : List (List Char) :=
  vs.map fun v => printDeclaration v.entry

theorem endsType_behind (vs : List Variable) (rest : List Char) :
    EndsType (behind (joined ", ".toList (declarations vs))
      (declarations vs).isEmpty ')' rest) := by
  have hempty : (declarations vs).isEmpty = true → joined ", ".toList (declarations vs) = [] :=
    joined_of_isEmpty
  have hskip := skipIgnored_behind hempty ')' rest
  cases vs with
  | nil =>
    refine ⟨⟨')', rest, rfl, by decide⟩, fun more hbang => ?_⟩
    exact absurd (List.cons.inj (hskip.symm.trans hbang)).1 (by decide)
  | cons v vs =>
    refine ⟨⟨',', _, rfl, by decide⟩, fun more hbang => ?_⟩
    rw [hskip, declarations, List.map_cons, joined_cons] at hbang
    exact absurd (List.cons.inj hbang).1 (by decide)

theorem readDeclarations?_cons (v : Variable) (hv : v.IsNamed) (fuel : Nat)
    (hrest : EndsType rest) :
    readDeclarations? (fuel + 1) (printDeclaration v.entry ++ rest) =
      (readDeclarations? fuel rest).map (Prod.map (v.read :: ·) id) := by
  have hname := readName?_toList hv.name (endsName_colon (v.type.print.toList ++ rest))
  have htype : readType? ((' ' :: (v.type.print.toList ++ rest)).length + 1)
      (' ' :: (v.type.print.toList ++ rest)) = some (.ofRef v.type, rest) :=
    (readType?_congr (skipIgnored_blank rfl _)).trans (readType?_print hv.core hrest _)
  have htext : printDeclaration v.entry ++ rest =
      '$' :: (v.name.toList ++ (": ".toList ++ (v.type.print.toList ++ rest))) := by
    simp [printDeclaration, Variable.entry]
  rw [htext, readDeclarations?, skipIgnored_token (by decide)]
  simp only [skipIgnored_name hv.name, hname, Option.bind_eq_bind, Option.bind_some]
  change ((readType? ((' ' :: (v.type.print.toList ++ rest)).length + 1)
    (' ' :: (v.type.print.toList ++ rest))).bind _) = _
  rw [htype, Option.bind_some]
  cases readDeclarations? fuel rest <;> rfl

theorem readDeclarations?_joined (hvs : ∀ v ∈ vs, v.IsNamed) (hfuel : vs.length < fuel)
    (rest : List Char) :
    readDeclarations? fuel (joined ", ".toList (declarations vs) ++ ')' :: rest) =
      some (vs.map Variable.read, rest) := by
  induction vs generalizing fuel with
  | nil =>
    obtain ⟨fuel, rfl⟩ := Nat.exists_eq_add_one_of_ne_zero (Nat.ne_zero_of_lt hfuel)
    rfl
  | cons v vs ih =>
    obtain ⟨fuel, rfl⟩ := Nat.exists_eq_add_one_of_ne_zero (Nat.ne_zero_of_lt hfuel)
    obtain ⟨hv, hvs'⟩ := List.forall_mem_cons.mp hvs
    have hmore := ih hvs' (by simpa using hfuel)
    -- Behind the type stands a comma, which the reader of the others skips.
    rw [← readDeclarations?_congr (skipIgnored_behind joined_of_isEmpty ')' rest)] at hmore
    have hcons : declarations (v :: vs) = printDeclaration v.entry :: declarations vs := rfl
    rw [hcons, joined_cons, readDeclarations?_cons v hv fuel (endsType_behind vs rest), hmore]
    rfl

theorem length_lt_joined (vs : List Variable) (rest : List Char) :
    vs.length < (joined ", ".toList (declarations vs) ++ ')' :: rest).length := by
  induction vs with
  | nil => simp
  | cons v vs ih =>
    have hcons : declarations (v :: vs) = printDeclaration v.entry :: declarations vs := rfl
    have hpos : 0 < (printDeclaration v.entry).length := Nat.succ_pos _
    have hbehind : (joined ", ".toList (declarations vs) ++ ')' :: rest).length ≤
        (behind (joined ", ".toList (declarations vs))
          (declarations vs).isEmpty ')' rest).length := by
      unfold behind
      split_ifs with hempty
      · rw [joined_of_isEmpty hempty]
        exact le_refl _
      · simp only [List.length_append]
        omega
    rw [hcons, joined_cons, List.length_append, List.length_cons]
    omega

/-- The parentheses of a header, and nothing without variables. -/
theorem readVariables?_parenthesized (hvs : ∀ v ∈ vs, v.IsNamed) (hrest : OpensNoArguments rest) :
    readVariables? (parenthesized (declarations vs) ++ rest) =
      some (vs.map Variable.read, rest) := by
  cases vs with
  | nil =>
    obtain ⟨c, more, hskip, hc⟩ := hrest
    unfold readVariables?
    split
    · rename_i heq
      exact absurd (List.cons.inj (hskip.symm.trans heq)).1 hc
    · rfl
  | cons v vs =>
    have hread :=
      readDeclarations?_joined hvs (Nat.lt_succ_of_lt (length_lt_joined (v :: vs) rest)) rest
    have htext : parenthesized (declarations (v :: vs)) ++ rest =
        '(' :: (joined ", ".toList (declarations (v :: vs)) ++ ')' :: rest) := by
      simp [parenthesized, declarations]
    rw [htext, readVariables?, skipIgnored_token (by decide)]
    simp only [hread]
    rfl

end Declarations

section Calls

variable {vs : List Variable}

def passing (vs : List Variable) : List (String × Json) :=
  vs.map fun v => (v.name, .string ("$" ++ v.name))

theorem isVariable_dollar {name : String} (hname : Text.isName name = true) :
    isVariable ("$" ++ name).toList = true := by
  rw [String.toList_append]
  exact hname

theorem printPassing_eq {name type : String} (hname : Text.isName name = true) :
    printPassing (name, type) =
      name.toList ++ ": ".toList ++ printLiteral (.string ("$" ++ name)) := by
  rw [printLiteral, if_pos (isVariable_dollar hname), String.toList_append]
  simp [printPassing]

theorem printEntries_passing (hvs : ∀ v ∈ vs, v.IsNamed) :
    printEntries (passing vs) = joined ", ".toList (vs.map fun v => printPassing v.entry) := by
  induction vs with
  | nil => rfl
  | cons v vs ih =>
    obtain ⟨hv, hvs'⟩ := List.forall_mem_cons.mp hvs
    have hpassing : printPassing v.entry = _ := printPassing_eq hv.name
    have hmore := ih hvs'
    cases vs with
    | nil => exact hpassing.symm
    | cons next others =>
      simp only [passing, List.map_cons, printEntries, joined, Variable.entry] at hmore hpassing ⊢
      rw [hmore, hpassing]

theorem ofFields_passing (hvs : ∀ v ∈ vs, v.IsNamed) :
    Literal.ofFields (passing vs) = vs.map fun v => (v.name, Literal.variable v.name) := by
  induction vs with
  | nil => rfl
  | cons v vs ih =>
    obtain ⟨hv, hvs'⟩ := List.forall_mem_cons.mp hvs
    have hvariable := isVariable_dollar hv.name
    have hmore := ih hvs'
    simp only [passing, List.map_cons, Literal.ofFields, Literal.ofJson, hvariable,
      if_true] at hmore ⊢
    rw [hmore]
    simp

theorem readArguments?_passing (hvs : ∀ v ∈ vs, v.IsNamed) (hrest : OpensNoArguments rest) :
    readArguments? (parenthesized (vs.map fun v => printPassing v.entry) ++ rest) =
      some (vs.map fun v => (v.name, .variable v.name), rest) := by
  have htext : parenthesized (vs.map fun v => printPassing v.entry) =
      printArguments (some (.object (passing vs))) := by
    have hentries := printEntries_passing hvs
    cases vs with
    | nil => rfl
    | cons v vs =>
      rw [List.map_cons] at hentries
      rw [List.map_cons, parenthesized, ← hentries]
      · rfl
      · exact List.cons_ne_nil _ _
  have hnames : Json.hasNames (.object (passing vs)) = true := by
    simp only [Json.hasNames, passing, List.all_map, List.all_eq_true]
    exact fun v hv => (hvs v hv).name
  have hinside : Json.allFields Json.hasNames (passing vs) = true := by
    rw [Json.allFields_iff]
    intro entry hentry
    obtain ⟨v, -, rfl⟩ := List.mem_map.mp hentry
    rfl
  rw [htext, readArguments?_printArguments rfl hnames hinside hrest, ofFields_passing hvs]

end Calls

section Headers

variable {vs : List Variable}

theorem readKind?_keyword (kind : OperationKind) (more : List Char) :
    readKind? (kind.keyword.toList ++ ' ' :: more) = some (kind, ' ' :: more) := by
  have hends : EndsName (' ' :: more) := endsName_cons (by decide)
  have hname : Text.isName kind.keyword = true := by cases kind <;> decide
  have hfind : OperationKind.all.find? (·.keyword == kind.keyword) = some kind := by
    cases kind <;> decide
  rw [readKind?, skipIgnored_name hname, readName?_toList hname hends]
  simp only [Option.bind_eq_bind, Option.bind_some, hfind]
  rfl

/-- Behind a call stands the selection of its result, or the end of the operation. -/
theorem skipIgnored_closingPart (nodes : List Node) :
    ∃ c more, skipIgnored (closingPart nodes) = c :: more ∧ (c = '{' ∨ c = '}') := by
  cases nodes with
  | nil => exact ⟨'}', [], rfl, Or.inr rfl⟩
  | cons node nodes => exact ⟨'{', _, rfl, Or.inl rfl⟩

theorem opensNoArguments_closingPart (nodes : List Node) :
    OpensNoArguments (closingPart nodes) := by
  obtain ⟨c, more, hskip, rfl | rfl⟩ := skipIgnored_closingPart nodes
  · exact ⟨_, more, hskip, by decide⟩
  · exact ⟨_, more, hskip, by decide⟩

theorem endsName_passing (items : List (List Char)) (nodes : List Node) :
    EndsName (parenthesized items ++ closingPart nodes) := by
  cases items with
  | cons item items => exact endsName_cons (by decide)
  | nil =>
    cases nodes with
    | nil => exact endsName_cons (by decide)
    | cons node nodes => exact endsName_cons (by decide)

/-- What is printed for an operation with these variables. -/
def headerOf (kind : OperationKind) (name : String) (vs : List Variable) : Header where
  kind := kind
  name := name
  declared := vs.map Variable.read
  field := name
  passed := vs.map fun v => (v.name, .variable v.name)

def behindName (name : String) (vs : List Variable) (nodes : List Node) : List Char :=
  parenthesized (declarations vs) ++ ' ' :: ("\x7b\n  ".toList ++ (name.toList ++
    (parenthesized (vs.map fun v => printPassing v.entry) ++ closingPart nodes)))

theorem endsName_behindName (name : String) (vs : List Variable) (nodes : List Node) :
    EndsName (behindName name vs nodes) := endsName_parenthesized _ _

theorem printList_entries (kind : OperationKind) (name : String) (vs : List Variable)
    (nodes : List Node) :
    printList kind name (vs.map Variable.entry) nodes =
      kind.keyword.toList ++ ' ' :: (name.toList ++ behindName name vs nodes) := by
  rw [printList_eq, List.map_map, List.map_map]
  rfl

theorem readName?_operation {name : String} (hname : Text.isName name = true)
    (hrest : EndsName rest) :
    readName? (skipIgnored (' ' :: (name.toList ++ rest))) = some (name, rest) := by
  rw [skipIgnored_blank rfl, skipIgnored_name hname, readName?_toList hname hrest]

theorem toList_marked (name : String) (rest : List Char) :
    (name ++ "?").toList ++ rest = name.toList ++ '?' :: rest := by
  rw [String.toList_append, List.append_assoc]
  rfl

/-- To a server the name ends in front of the marker, which is left over. -/
theorem readName?_marked {name : String} (hname : Text.isName name = true) (rest : List Char) :
    readName? ((name ++ "?").toList ++ rest) = some (name, '?' :: rest) := by
  rw [toList_marked, readName?_stop hname (by decide), String.ofList_toList]

theorem readName?_markedOperation {name : String} (hname : Text.isName name = true)
    (rest : List Char) :
    readName? (skipIgnored (' ' :: ((name ++ "?").toList ++ rest))) = some (name, '?' :: rest) := by
  rw [skipIgnored_blank rfl, toList_marked, skipIgnored_name hname, ← toList_marked,
    readName?_marked hname]

theorem readVariables?_behindName (hvs : ∀ v ∈ vs, v.IsNamed) (name : String) (nodes : List Node) :
    readVariables? (behindName name vs nodes) = some (vs.map Variable.read,
      ' ' :: ("\x7b\n  ".toList ++ (name.toList ++
        (parenthesized (vs.map fun v => printPassing v.entry) ++ closingPart nodes)))) :=
  readVariables?_parenthesized hvs ⟨'{', _, rfl, by decide⟩

/-- A server reads the header of a printed document and the call in it back. -/
theorem readHeader?_printList {name : String} (hname : Text.isName name = true)
    (hvs : ∀ v ∈ vs, v.IsNamed) (kind : OperationKind) (nodes : List Node) :
    readHeader? (printList kind name (vs.map Variable.entry) nodes) =
      some (headerOf kind name vs, closingPart nodes) := by
  have hoperation := readName?_operation hname (endsName_behindName name vs nodes)
  have hvariables := readVariables?_behindName hvs name nodes
  have hfield : readName? (skipIgnored ("\n  ".toList ++ (name.toList ++
      (parenthesized (vs.map fun v => printPassing v.entry) ++ closingPart nodes)))) =
        some (name, _) :=
    (congrArg readName? (skipIgnored_name hname _)).trans
      (readName?_toList hname (endsName_passing _ nodes))
  have hpassed := readArguments?_passing hvs (opensNoArguments_closingPart nodes)
  rw [printList_entries, readHeader?, readKind?_keyword]
  simp only [Option.bind_eq_bind, Option.bind_some, hoperation, hvariables]
  change ((readName? (skipIgnored ("\n  ".toList ++ (name.toList ++
      (parenthesized (vs.map fun v => printPassing v.entry) ++ closingPart nodes))))).bind _) = _
  rw [hfield]
  simp only [Option.bind_some, hpassed]
  obtain ⟨c, more, hskip, rfl | rfl⟩ := skipIgnored_closingPart nodes
  · simp only [hskip]
    rfl
  · simp only [hskip]
    rfl

/-- A marker behind the name of an operation belongs to nothing that a document may contain. -/
theorem readHeader?_marked {name : String} (hname : Text.isName name = true) (kind : OperationKind)
    (nodes : List Node) :
    readHeader? (printList kind (name ++ "?") (vs.map Variable.entry) nodes) = none := by
  have hskip : ∀ more, skipIgnored ('?' :: more) = '?' :: more := skipIgnored_token (by decide)
  have hvariables : ∀ more, readVariables? ('?' :: more) = some ([], '?' :: more) := by
    intro more
    rw [readVariables?, hskip]
    rfl
  rw [printList_entries, readHeader?, readKind?_keyword]
  simp only [Option.bind_eq_bind, Option.bind_some, readName?_markedOperation hname,
    hvariables, hskip]
  rfl

theorem dropMarker_behindName (name : String) (vs : List Variable) (nodes : List Node) :
    dropMarker (behindName name vs nodes) = behindName name vs nodes := by
  cases vs with
  | nil => rfl
  | cons v vs => rfl

/-- The variables of a printed document are read with and without a marker behind its name. -/
theorem readDeclared?_printList {printed name : String} (hname : Text.isName name = true)
    (hprinted : printed = name ∨ printed = name ++ "?") (hvs : ∀ v ∈ vs, v.IsNamed)
    (kind : OperationKind) (nodes : List Node) :
    readDeclared? (printList kind printed (vs.map Variable.entry) nodes) =
      some (kind, name, vs.map Variable.read) := by
  have hoperation : ∃ more, dropMarker more = behindName printed vs nodes ∧
      readName? (skipIgnored (' ' :: (printed.toList ++ behindName printed vs nodes))) =
        some (name, more) := by
    rcases hprinted with rfl | rfl
    · exact ⟨_, dropMarker_behindName printed vs nodes,
        readName?_operation hname (endsName_behindName printed vs nodes)⟩
    · exact ⟨'?' :: behindName (name ++ "?") vs nodes, rfl, readName?_markedOperation hname _⟩
  obtain ⟨more, hmarker, hread⟩ := hoperation
  rw [printList_entries, readDeclared?, readKind?_keyword]
  simp only [Option.bind_eq_bind, Option.bind_some, hread, hmarker, readVariables?_behindName hvs]
  rfl

end Headers

/-- A type that null is no value of ends in a `!`. -/
theorem TypeLiteral.bang_of_ofRef {t : TypeRef} (h : (ofRef t).isNullable = false) :
    t.print.toList.getLast? = some '!' := by
  obtain ⟨core, wrapping, span⟩ := t
  have hlast : ∀ front : String, (front ++ TypeRef.bang false).toList.getLast? = some '!' := by
    intro front
    rw [String.toList_append]
    exact List.getLast?_concat
  cases wrapping with
  | single nullable =>
    obtain rfl : nullable = false := h
    exact hlast core
  | list itemsNullable nullable =>
    obtain rfl : nullable = false := h
    exact hlast ("[" ++ core ++ TypeRef.bang itemsNullable ++ "]")

end GraphQLClient.Document
