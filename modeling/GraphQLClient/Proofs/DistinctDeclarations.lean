import GraphQLClient.Proofs.OrderedMaps
import GraphQLClient.Schema.Literal
import Mathlib.Data.List.Induction

/-!
# Declarations of different names

Where every name is declared once, a draft holds exactly what was declared, kind by kind and in
order.
-/
namespace GraphQLClient

@[simp] theorem OperationSections.operations_insert (sections : OperationSections)
    (kind other : OperationKind) (name : String) (signature : OperationSignature) :
    (sections.insert kind name signature).operations other =
      if other = kind then (sections.operations other).insert name signature
      else sections.operations other := by
  cases kind <;> cases other <;> rfl

theorem OperationSections.ext_operations {a b : OperationSections}
    (h : ∀ kind, a.operations kind = b.operations kind) : a = b := by
  obtain ⟨queries, mutations, subscriptions⟩ := a
  obtain rfl : queries = b.queries := h .query
  obtain rfl : mutations = b.mutations := h .mutation
  obtain rfl : subscriptions = b.subscriptions := h .subscription
  rfl

namespace SchemaDraft

/-- A declaration that could be read, or what was wrong with it. -/
abbrev Entry := Except SchemaError Declaration

def typeOf? (entry : Entry) : Option (String × TypeDefinition) :=
  entry.toOption.bind Declaration.type?

def operationOf? (kind : OperationKind) (entry : Entry) : Option (String × OperationSignature) :=
  entry.toOption.bind (Declaration.operation? kind)

def errorOf? : Entry → Option SchemaError
  | .ok _ => none
  | .error error => some error

structure Distinct (entries : List Entry) : Prop where
  types : (Entries.keys (entries.filterMap typeOf?)).Nodup
  operations : ∀ kind, (Entries.keys (entries.filterMap (operationOf? kind))).Nodup
  no_codec : ∀ scalar codec, .ok (.codec scalar codec) ∉ entries

structure Holds (draft : SchemaDraft) (entries : List Entry) : Prop where
  types : draft.types.entries = entries.filterMap typeOf?
  operations : ∀ kind, (draft.sections.operations kind).entries =
    entries.filterMap (operationOf? kind)
  errors : draft.errors = entries.filterMap errorOf?

theorem Distinct.front {front : List Entry} {entry : Entry} (h : Distinct (front ++ [entry])) :
    Distinct front := by
  constructor
  · have htypes := h.types
    rw [List.filterMap_append, Entries.keys, List.map_append] at htypes
    exact htypes.of_append_left
  · intro kind
    have hoperations := h.operations kind
    rw [List.filterMap_append, Entries.keys, List.map_append] at hoperations
    exact hoperations.of_append_left
  · intro scalar codec hmem
    exact h.no_codec scalar codec (List.mem_append_left _ hmem)

theorem holds_empty : Holds empty [] := ⟨rfl, fun kind => by cases kind <;> rfl, rfl⟩

theorem contains_eq_false {α : Type} {m : OrderedMap α} {front : List (String × α)} {name : String}
    {value : α} (hentries : m.entries = front)
    (h : (Entries.keys (front ++ [(name, value)])).Nodup) : m.contains name = false := by
  rw [OrderedMap.contains_eq_false_iff, OrderedMap.keys, hentries]
  intro hmem
  rw [Entries.keys, List.map_append, List.nodup_append] at h
  exact h.2.2 name hmem name (List.mem_singleton_self _) rfl

/-! What is declared last is new and goes to the end. -/

section

variable {α : Type} {f : Entry → Option α} {front : List Entry} {entry : Entry}

theorem filterMap_without (h : f entry = none) :
    (front ++ [entry]).filterMap f = front.filterMap f := by
  rw [List.filterMap_append, List.filterMap_cons_none h, List.filterMap_nil, List.append_nil]

theorem filterMap_with {found : α} (h : f entry = some found) :
    (front ++ [entry]).filterMap f = front.filterMap f ++ [found] := by
  rw [List.filterMap_append, List.filterMap_cons_some h, List.filterMap_nil]

end

section

variable {draft : SchemaDraft} {front : List Entry}

theorem Holds.refuse (h : draft.Holds front) (error : SchemaError) :
    (draft.add (.error error)).Holds (front ++ [.error error]) where
  types := h.types.trans (filterMap_without rfl).symm
  operations kind := (h.operations kind).trans (filterMap_without rfl).symm
  errors := by
    have hown : errorOf? (.error error) = some error := rfl
    rw [filterMap_with hown, ← h.errors]
    rfl

theorem Holds.declareType (h : draft.Holds front) {name : String} {definition : TypeDefinition}
    (hdistinct : Distinct (front ++ [.ok (.type name definition)])) :
    (draft.add (.ok (.type name definition))).Holds (front ++ [.ok (.type name definition)]) := by
  have hown : typeOf? (.ok (.type name definition)) = some (name, definition) := rfl
  have hnew : draft.types.contains name = false := by
    have htypes := hdistinct.types
    rw [filterMap_with hown] at htypes
    exact contains_eq_false h.types htypes
  simp only [SchemaDraft.add, declare, hnew, Bool.false_eq_true, if_false]
  constructor
  · rw [OrderedMap.insert_new hnew, h.types, filterMap_with hown]
  · intro kind
    exact (h.operations kind).trans (filterMap_without rfl).symm
  · exact h.errors.trans (filterMap_without rfl).symm

@[simp] theorem operationOf?_declared (kind other : OperationKind) (name : String)
    (signature : OperationSignature) :
    operationOf? other (.ok (.operation kind name signature)) =
      if kind = other then some (name, signature) else none := rfl

theorem Holds.declareOperation (h : draft.Holds front) {kind : OperationKind} {name : String}
    {signature : OperationSignature}
    (hdistinct : Distinct (front ++ [.ok (.operation kind name signature)])) :
    (draft.add (.ok (.operation kind name signature))).Holds
      (front ++ [.ok (.operation kind name signature)]) := by
  have hown : operationOf? kind (.ok (.operation kind name signature)) = some (name, signature) :=
    (operationOf?_declared kind kind name signature).trans (if_pos rfl)
  have hnew : (draft.sections.operations kind).contains name = false := by
    have hoperations := hdistinct.operations kind
    rw [filterMap_with hown] at hoperations
    exact contains_eq_false (h.operations kind) hoperations
  simp only [SchemaDraft.add, declare, hnew, Bool.false_eq_true, if_false]
  constructor
  · exact h.types.trans (filterMap_without rfl).symm
  · intro other
    rw [OperationSections.operations_insert]
    by_cases hkind : other = kind
    · subst hkind
      rw [if_pos rfl, OrderedMap.insert_new hnew, h.operations, filterMap_with hown]
    · have hother := operationOf?_declared kind other name signature
      rw [if_neg (Ne.symm hkind)] at hother
      rw [if_neg hkind, h.operations, filterMap_without hother]
  · exact h.errors.trans (filterMap_without rfl).symm

theorem Holds.add {entry : Entry} (h : draft.Holds front)
    (hdistinct : Distinct (front ++ [entry])) :
    (draft.add entry).Holds (front ++ [entry]) := by
  cases entry with
  | error error => exact h.refuse error
  | ok declaration =>
    cases declaration with
    | type name definition => exact h.declareType hdistinct
    | operation kind name signature => exact h.declareOperation hdistinct
    | codec scalar codec =>
      exact absurd (List.mem_append_right _ (List.mem_singleton_self _))
        (hdistinct.no_codec scalar codec)

end

theorem holds_addAll {entries : List Entry} (h : Distinct entries) :
    (empty.addAll entries).Holds entries := by
  induction entries using List.reverseRecOn with
  | nil => exact holds_empty
  | append_singleton front entry ih =>
    have hadd : empty.addAll (front ++ [entry]) = (empty.addAll front).add entry := by
      simp [addAll]
    rw [hadd]
    exact (ih h.front).add h

theorem Holds.eq {a b : SchemaDraft} {entries others : List Entry} (ha : a.Holds entries)
    (hb : b.Holds others) (htypes : entries.filterMap typeOf? = others.filterMap typeOf?)
    (hoperations : ∀ kind, entries.filterMap (operationOf? kind) =
      others.filterMap (operationOf? kind))
    (herrors : entries.filterMap errorOf? = others.filterMap errorOf?) : a = b := by
  obtain ⟨types, sections, errors⟩ := a
  obtain rfl : types = b.types :=
    OrderedMap.ext_entries (ha.types.trans (htypes.trans hb.types.symm))
  obtain rfl : sections = b.sections := by
    apply OperationSections.ext_operations
    intro kind
    exact OrderedMap.ext_entries
      ((ha.operations kind).trans ((hoperations kind).trans (hb.operations kind).symm))
  obtain rfl : errors = b.errors := ha.errors.trans (herrors.trans hb.errors.symm)
  rfl

end SchemaDraft

end GraphQLClient
