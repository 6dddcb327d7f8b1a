import GraphQLClient.Proofs.CheckedSchemas
import GraphQLClient.Proofs.LookupAgreement
import GraphQLClient.Proofs.ReorderedLiterals

/-!
# The order of declarations

Declarations may refer to later ones, and a problem of one does not hide those of others. In
whatever order a literal gives them, the same problems are reported, or the schemas have the same
parts and give the same answers.
-/
namespace GraphQLClient

open Outcome

/-- Where at most one item passes, the order of the items does not matter. -/
theorem find?_of_perm {α : Type} {p : α → Bool} {items others : List α} (hperm : items.Perm others)
    (hunique : ∀ x ∈ items, ∀ y ∈ items, p x = true → p y = true → x = y) :
    items.find? p = others.find? p := by
  cases hfound : items.find? p with
  | none =>
    rw [List.find?_eq_none] at hfound
    refine (List.find?_eq_none.mpr ?_).symm
    intro x hx
    exact hfound x (hperm.mem_iff.mpr hx)
  | some x =>
    have hx := List.mem_of_find?_eq_some hfound
    have hpx := List.find?_some hfound
    cases hother : others.find? p with
    | none => exact absurd hpx (List.find?_eq_none.mp hother x (hperm.mem_iff.mp hx))
    | some y =>
      have hy := hperm.mem_iff.mpr (List.mem_of_find?_eq_some hother)
      rw [hunique x hx y hy hpx (List.find?_some hother)]

namespace OperationSections

theorem mem_toList {sections : OperationSections} {kind : OperationKind} {name : String}
    {signature : OperationSignature} (h : (kind, name, signature) ∈ sections.toList) :
    (sections.operations kind).get? name = some signature := by
  obtain ⟨declared, -, hmem⟩ := List.mem_flatMap.mp h
  obtain ⟨entry, hentry, heq⟩ := List.mem_map.mp hmem
  cases heq
  exact OrderedMap.get?_eq_some_iff.mpr hentry

theorem mem_toList_of_get? {sections : OperationSections} {kind : OperationKind} {name : String}
    {signature : OperationSignature} (h : (sections.operations kind).get? name = some signature) :
    (kind, name, signature) ∈ sections.toList := by
  have hkind : kind ∈ OperationKind.all := by cases kind <;> decide
  refine List.mem_flatMap.mpr ⟨kind, hkind, ?_⟩
  exact List.mem_map.mpr ⟨(name, signature), OrderedMap.get?_eq_some_iff.mp h, rfl⟩

end OperationSections

namespace SchemaDraft

variable {a b : SchemaDraft}

namespace SameContents

theorem agrees (h : a.SameContents b) : a.types.Agrees b.types := OrderedMap.perm_iff.mp h.types

theorem toList_perm (h : a.SameContents b) : a.sections.toList.Perm b.sections.toList := by
  apply List.Perm.flatMap_left
  intro kind _
  exact (h.operations kind).map _

theorem problems_perm (h : a.SameContents b) : a.problems.Perm b.problems := by
  refine h.errors.append (List.Perm.append ?_ ?_)
  · apply h.types.flatMap
    rintro ⟨name, definition⟩ -
    exact List.Perm.of_eq (h.agrees.typeErrors name definition)
  · apply h.toList_perm.flatMap
    rintro ⟨kind, name, signature⟩ -
    exact List.Perm.of_eq (h.agrees.operationErrors kind name signature)

end SameContents

theorem map_compile {types : TypeTable}
    {signatures : List (OperationKind × String × OperationSignature)} {operations : List Operation}
    (h : compileAll types signatures = .ok operations) :
    signatures.map (fun entry => Operation.compile types entry.1 entry.2.1 entry.2.2) =
      operations.map .ok := by
  induction signatures generalizing operations with
  | nil =>
    cases h
    rfl
  | cons entry rest ih =>
    obtain ⟨kind, name, signature⟩ := entry
    simp only [compileAll, bind_eq_ok, pure_eq_ok] at h
    obtain ⟨first, hfirst, others, hothers, rfl⟩ := h
    simp only [List.map_cons, hfirst, ih hothers]

theorem SameContents.operations_perm (h : a.SameContents b) {operations others : List Operation}
    (ha : compileAll a.types a.sections.toList = .ok operations)
    (hb : compileAll b.types b.sections.toList = .ok others) : operations.Perm others := by
  have hcompile : (fun entry : OperationKind × String × OperationSignature =>
      Operation.compile a.types entry.1 entry.2.1 entry.2.2) =
      fun entry => Operation.compile b.types entry.1 entry.2.1 entry.2.2 := by
    funext entry
    exact h.agrees.compile entry.1 entry.2.1 entry.2.2
  have hmap := h.toList_perm.map fun entry => Operation.compile a.types entry.1 entry.2.1 entry.2.2
  rw [map_compile ha, hcompile, map_compile hb] at hmap
  exact (List.map_perm_map_iff fun _ _ heq => Except.ok.inj heq).mp hmap

/-- Operations of the same kind and name come from one signature. -/
theorem operation_unique {types : TypeTable} {sections : OperationSections}
    {operations : List Operation} (h : compileAll types sections.toList = .ok operations)
    {o o' : Operation} (ho : o ∈ operations) (ho' : o' ∈ operations) (hkind : o.kind = o'.kind)
    (hname : o.name = o'.name) : o = o' := by
  obtain ⟨kind, name, signature, hmem, hcompile⟩ := mem_compileAll h ho
  obtain ⟨kind', name', signature', hmem', hcompile'⟩ := mem_compileAll h ho'
  have hid : o.kind = kind ∧ o.name = name := by
    obtain ⟨_, _, -, -, rfl⟩ := Operation.compile_eq_ok hcompile
    exact ⟨rfl, rfl⟩
  have hid' : o'.kind = kind' ∧ o'.name = name' := by
    obtain ⟨_, _, -, -, rfl⟩ := Operation.compile_eq_ok hcompile'
    exact ⟨rfl, rfl⟩
  obtain rfl : kind = kind' := hid.1.symm.trans (hkind.trans hid'.1)
  obtain rfl : name = name' := hid.2.symm.trans (hname.trans hid'.2)
  have hget := OperationSections.mem_toList hmem
  cases hget.symm.trans (OperationSections.mem_toList hmem')
  exact Except.ok.inj (hcompile.symm.trans hcompile')

end SchemaDraft

namespace Schema

structure Alike (a b : Schema) : Prop where
  definitions : ∀ name, a.types.get? name = b.types.get? name
  signatures : ∀ kind name, (a.sections.operations kind).get? name =
    (b.sections.operations kind).get? name
  operations : a.operations.Perm b.operations
  operation? : ∀ kind name, a.operation? kind name = b.operation? kind name
  resolve : ∀ expr location, a.types.resolve expr location = b.types.resolve expr location
  allFields : ∀ expr, a.types.allFields expr = b.types.allFields expr
  checkSelection : ∀ parent field expr nodes,
    a.types.checkSelection parent field expr nodes = b.types.checkSelection parent field expr nodes
  codec? : ∀ resolved, a.types.codec? resolved = b.types.codec? resolved

inductive SameVerdict :
    Except (List SchemaError) Schema → Except (List SchemaError) Schema → Prop where
  | refused {errors others : List SchemaError} : errors.Perm others →
    SameVerdict (.error errors) (.error others)
  | accepted {a b : Schema} : Alike a b → SameVerdict (.ok a) (.ok b)

end Schema

namespace SchemaDraft

variable {a b : SchemaDraft}

theorem SameContents.alike (h : a.SameContents b) {operations others : List Operation}
    (ha : compileAll a.types a.sections.toList = .ok operations)
    (hb : compileAll b.types b.sections.toList = .ok others) :
    Schema.Alike ⟨a.types, a.sections, operations⟩ ⟨b.types, b.sections, others⟩ where
  definitions := h.agrees
  signatures kind := OrderedMap.perm_iff.mp (h.operations kind)
  operations := h.operations_perm ha hb
  operation? kind name := by
    apply find?_of_perm (h.operations_perm ha hb)
    intro o ho o' ho' hid hid'
    simp only [Bool.and_eq_true, beq_iff_eq] at hid hid'
    exact operation_unique ha ho ho' (hid.1.trans hid'.1.symm) (hid.2.trans hid'.2.symm)
  resolve := h.agrees.resolve
  allFields := h.agrees.allFields
  checkSelection := h.agrees.checkSelection
  codec? := h.agrees.codec?

theorem SameContents.sameVerdict (h : a.SameContents b) : Schema.SameVerdict a.build b.build := by
  have hproblems := h.problems_perm
  rcases a.build_cases with ⟨hsome, hbuild⟩ | ⟨hnone, operations, hoperations, hbuild⟩
  · rcases b.build_cases with ⟨-, hbuild'⟩ | ⟨hnone', -⟩
    · rw [hbuild, hbuild']
      exact .refused hproblems
    · rw [hnone'] at hproblems
      exact absurd hproblems.eq_nil hsome
  · rcases b.build_cases with ⟨hsome', -⟩ | ⟨-, others, hothers, hbuild'⟩
    · rw [hnone] at hproblems
      exact absurd hproblems.symm.eq_nil hsome'
    · rw [hbuild, hbuild']
      exact .accepted (h.alike hoperations hothers)

end SchemaDraft

namespace Schema

/-- A literal repeats no key. -/
theorem declaration_order {literal reordered : Json}
    (hkeys : literal.all Json.hasDistinctKeys = true)
    (h : SchemaLiteral.Reordered literal reordered) :
    SameVerdict (ofJson literal) (ofJson reordered) :=
  (SchemaDraft.sameContents_of_reordered hkeys h).sameVerdict

def shopFields : Json := .object [("price", .string "Price!"), ("next?", .string "Shop")]

def shopQuery : String × Json := ("shop", .array [.string "=>", .string "Shop"])

def pricesQuery : String × Json :=
  ("prices", .array [.object [("above?", .string "Price")], .string "=>", .string "[Price!]!"])

/-- Every use stands in front of what it uses. -/
def usesFirst : Json := .object [
  ("Query", .object [shopQuery, pricesQuery]), ("Shop", shopFields), ("Price", .string "Float")]

def usesLast : Json := .object [
  ("Price", .string "Float"), ("Query", .object [pricesQuery, shopQuery]), ("Shop", shopFields)]

theorem usesFirst_reordered : SchemaLiteral.Reordered usesFirst usesLast := by
  refine .entries (.cons (.operations rfl (List.Perm.swap _ _ _))
    (.cons (.same _) (.cons (.same _) .nil))) ?_
  exact @List.perm_append_comm _ [("Query", .object [pricesQuery, shopQuery]), ("Shop", shopFields)]
    [("Price", .string "Float")]

def undeclaredFirst : Json := .object [("Query", .object [shopQuery, pricesQuery])]

def undeclaredLast : Json := .object [("Query", .object [pricesQuery, shopQuery])]

theorem undeclaredFirst_reordered : SchemaLiteral.Reordered undeclaredFirst undeclaredLast :=
  .entries (.cons (.operations rfl (List.Perm.swap _ _ _)) .nil) (List.Perm.refl _)

def shopType : String × String := ("Shop", "\x7b\"price\":\"Price!\",\"next?\":\"Shop\"\x7d")

def priceType : String × String := ("Price", "\"Float\"")

def shopHeader : String × List (String × String) × String := ("Query.shop", [], "Shop")

def pricesHeader : String × List (String × String) × String :=
  ("Query.prices", [("above", "Price")], "[Price!]!")

theorem shop_declaration_order :
    (∃ a b, ofJson usesFirst = .ok a ∧ ofJson usesLast = .ok b ∧ a.Alike b ∧
      a.outline = ⟨[shopType, priceType], [shopHeader, pricesHeader]⟩ ∧
      b.outline = ⟨[priceType, shopType], [pricesHeader, shopHeader]⟩) ∧
    ∃ errors others, ofJson undeclaredFirst = .error errors ∧
      ofJson undeclaredLast = .error others ∧
      errors.Perm others ∧
      errors.map SchemaError.message = ["'Shop' is unresolvable (in Query.shop)",
        "'Price' is unresolvable (in Query.prices(above))",
        "'Price' is unresolvable (in Query.prices)"] ∧
      others.map SchemaError.message = ["'Price' is unresolvable (in Query.prices(above))",
        "'Price' is unresolvable (in Query.prices)", "'Shop' is unresolvable (in Query.shop)"] := by
  constructor
  · have hfirst : outlineOf (ofJson usesFirst) =
        .ok ⟨[shopType, priceType], [shopHeader, pricesHeader]⟩ := by decide +kernel
    have hlast : outlineOf (ofJson usesLast) =
        .ok ⟨[priceType, shopType], [pricesHeader, shopHeader]⟩ := by decide +kernel
    obtain ⟨a, ha, hseen⟩ := accepted_of_outline hfirst
    obtain ⟨b, hb, hseen'⟩ := accepted_of_outline hlast
    have hverdict := @declaration_order usesFirst usesLast (by decide +kernel) usesFirst_reordered
    rw [ha, hb] at hverdict
    cases hverdict with
    | accepted h => exact ⟨a, b, ha, hb, h, hseen, hseen'⟩
  · have hfirst : outlineOf (ofJson undeclaredFirst) =
        .error ["'Shop' is unresolvable (in Query.shop)",
          "'Price' is unresolvable (in Query.prices(above))",
          "'Price' is unresolvable (in Query.prices)"] := by decide +kernel
    have hlast : outlineOf (ofJson undeclaredLast) =
        .error ["'Price' is unresolvable (in Query.prices(above))",
          "'Price' is unresolvable (in Query.prices)",
          "'Shop' is unresolvable (in Query.shop)"] := by decide +kernel
    obtain ⟨errors, herrors, hmessages⟩ := refused_of_outline hfirst
    obtain ⟨others, hothers, hmessages'⟩ := refused_of_outline hlast
    have hverdict :=
      @declaration_order undeclaredFirst undeclaredLast
        (by decide +kernel) undeclaredFirst_reordered
    rw [herrors, hothers] at hverdict
    cases hverdict with
    | refused h => exact ⟨errors, others, herrors, hothers, h, hmessages, hmessages'⟩

/-- What is read from a text repeats no key. -/
theorem sameVerdict_ofText {text other : String} {literal reordered : Json}
    (htext : Json.parse text = .ok literal) (hother : Json.parse other = .ok reordered)
    (h : SchemaLiteral.Reordered literal reordered) : SameVerdict (ofText text) (ofText other) := by
  simp only [ofText, htext, hother]
  exact (SchemaDraft.sameContents_of_reordered (Json.distinct_parse htext) h).sameVerdict

end Schema

end GraphQLClient
