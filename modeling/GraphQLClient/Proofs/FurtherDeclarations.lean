import GraphQLClient.Proofs.DistinctDeclarations
import GraphQLClient.Proofs.ErrorPlaces

/-!
# Further declarations

Declarations under names that a schema lacks may stand anywhere among those of the schema. The draft
holds all that it would hold without them, and what it holds or refuses besides comes from them.
-/
namespace GraphQLClient

inductive Interleaves {α : Type} : List α → List α → List α → Prop where
  | nil : Interleaves [] [] []
  | left {x : α} {xs ys all : List α} : Interleaves xs ys all → Interleaves (x :: xs) ys (x :: all)
  | right {y : α} {xs ys all : List α} : Interleaves xs ys all → Interleaves xs (y :: ys) (y :: all)

theorem Interleaves.symm {α : Type} {xs ys all : List α} (h : Interleaves xs ys all) :
    Interleaves ys xs all := by
  induction h with
  | nil => exact .nil
  | left _ ih => exact .right ih
  | right _ ih => exact .left ih

theorem interleaves_append {α : Type} (xs ys : List α) : Interleaves xs ys (xs ++ ys) := by
  induction xs with
  | cons x xs ih => exact .left ih
  | nil =>
    induction ys with
    | nil => exact .nil
    | cons y ys ih => exact .right ih

namespace OrderedMap

variable {α : Type} {P : String → α → Prop} {small large : OrderedMap α}

structure Enlarges (P : String → α → Prop) (small large : OrderedMap α) : Prop where
  kept : ∀ key value, small.get? key = some value → large.get? key = some value
  added : ∀ key value, large.get? key = some value → small.get? key = some value ∨ P key value

theorem enlarges_self (P : String → α → Prop) (m : OrderedMap α) : Enlarges P m m where
  kept _ _ h := h
  added _ _ h := Or.inl h

theorem Enlarges.insert (h : Enlarges P small large) {key : String} {value : α}
    (hnew : small.get? key = none) (hvalue : P key value) :
    Enlarges P small (large.insert key value) := by
  constructor
  · intro name found hfound
    have hne : key ≠ name := by
      rintro rfl
      cases hnew.symm.trans hfound
    simpa [hne] using h.kept name found hfound
  · intro name found hfound
    rw [get?_insert] at hfound
    split_ifs at hfound with heq
    · subst heq
      cases hfound
      exact Or.inr hvalue
    · exact h.added name found hfound

theorem Enlarges.insert_both (h : Enlarges P small large) (key : String) (value : α) :
    Enlarges P (small.insert key value) (large.insert key value) := by
  constructor
  · intro name found hfound
    rw [get?_insert] at hfound ⊢
    split_ifs at hfound ⊢ with heq
    · exact hfound
    · exact h.kept name found hfound
  · intro name found hfound
    rw [get?_insert] at hfound ⊢
    split_ifs at hfound ⊢ with heq
    · exact Or.inl hfound
    · exact h.added name found hfound

end OrderedMap

def Declaration.places : Declaration → List String
  | .type name definition => definition.places name
  | .operation kind name signature => signaturePlaces (Operation.location kind name) signature.input
  | .codec scalar _ => [scalar]

/-- The error is the entry's own, or it names a place in what is declared. -/
def SchemaError.Concerns (error : SchemaError) : SchemaDraft.Entry → Prop
  | .ok declaration => error.place ∈ declaration.places
  | .error own => error = own

def SchemaError.IsAbout (error : SchemaError) (entries : List SchemaDraft.Entry) : Prop :=
  ∃ entry ∈ entries, error.Concerns entry

def SchemaDraft.Mentions (entries : List SchemaDraft.Entry) (places : List String) : Prop :=
  ∃ declaration, .ok declaration ∈ entries ∧ places ⊆ declaration.places

theorem SchemaDraft.Mentions.isAbout {entries : List Entry} {places : List String}
    (h : Mentions entries places) {error : SchemaError} (hplace : error.place ∈ places) :
    error.IsAbout entries := by
  obtain ⟨declaration, hmem, hsub⟩ := h
  exact ⟨.ok declaration, hmem, hsub hplace⟩

namespace Schema

/-- The schema has no type, or no operation of the kind, of the name that is declared. A codec is
for a scalar that is not in the schema either. -/
def Lacks (schema : Schema) : Declaration → Prop
  | .type name _ => schema.types.get? name = none
  | .operation kind name _ => (schema.sections.operations kind).get? name = none
  | .codec scalar _ => schema.types.get? scalar = none

instance (schema : Schema) : DecidablePred schema.Lacks := fun declaration =>
  match declaration with
  | .type name _ =>
    decidable_of_iff ((schema.types.get? name).isNone = true) Option.isNone_iff_eq_none
  | .operation kind name _ =>
    decidable_of_iff (((schema.sections.operations kind).get? name).isNone = true)
      Option.isNone_iff_eq_none
  | .codec scalar _ =>
    decidable_of_iff ((schema.types.get? scalar).isNone = true) Option.isNone_iff_eq_none

def toDraft (schema : Schema) : SchemaDraft := ⟨schema.types, schema.sections, []⟩

theorem lacks_of_all {schema : Schema} {entries : List SchemaDraft.Entry}
    (h : (entries.all fun entry => entry.toOption.all fun declaration => schema.Lacks declaration) =
      true) : ∀ declaration, .ok declaration ∈ entries → schema.Lacks declaration := by
  intro declaration hmem
  exact of_decide_eq_true (List.all_eq_true.mp h _ hmem)

end Schema

namespace SchemaDraft

variable {schema : Schema} {further : List SchemaDraft.Entry} {base whole : SchemaDraft}

/-! A draft on its way to a schema. -/

structure LeadsTo (draft : SchemaDraft) (schema : Schema) : Prop where
  types : ∀ name, schema.types.get? name = none → draft.types.get? name = none
  operations : ∀ kind name, (schema.sections.operations kind).get? name = none →
    (draft.sections.operations kind).get? name = none
  errors : draft.errors = []

theorem LeadsTo.of_insertType {draft : SchemaDraft} {name : String} {definition : TypeDefinition}
    (h : LeadsTo { draft with types := draft.types.insert name definition } schema) :
    schema.types.get? name ≠ none ∧ draft.LeadsTo schema := by
  refine ⟨?_, ?_, h.operations, h.errors⟩
  · intro hnone
    have hinsert := h.types name hnone
    simp at hinsert
  · intro other hnone
    have hinsert := h.types other hnone
    rw [OrderedMap.get?_insert] at hinsert
    split_ifs at hinsert
    exact hinsert

theorem LeadsTo.of_insertOperation {draft : SchemaDraft} {kind : OperationKind} {name : String}
    {signature : OperationSignature}
    (h : LeadsTo { draft with sections := draft.sections.insert kind name signature } schema) :
    (schema.sections.operations kind).get? name ≠ none ∧ draft.LeadsTo schema := by
  have hsections := h.operations
  simp only [OperationSections.operations_insert] at hsections
  refine ⟨?_, h.types, ?_, h.errors⟩
  · intro hnone
    have hinsert := hsections kind name hnone
    simp at hinsert
  · intro other found hnone
    have hinsert := hsections other found hnone
    split_ifs at hinsert with hkind
    · rw [OrderedMap.get?_insert] at hinsert
      split_ifs at hinsert
      exact hinsert
    · exact hinsert

theorem not_leadsTo_refuse (draft : SchemaDraft) (error : SchemaError) :
    ¬ (draft.refuse error).LeadsTo schema := by
  intro h
  have hnone : draft.errors ++ [error] = [] := h.errors
  simp at hnone

inductive Adds (schema : Schema) (draft : SchemaDraft) : Entry → SchemaDraft → Prop where
  | type {name : String} {definition : TypeDefinition} : draft.types.contains name = false →
      schema.types.get? name ≠ none →
      Adds schema draft (.ok (.type name definition))
        { draft with types := draft.types.insert name definition }
  | operation {kind : OperationKind} {name : String} {signature : OperationSignature} :
      (draft.sections.operations kind).contains name = false →
      (schema.sections.operations kind).get? name ≠ none →
      Adds schema draft (.ok (.operation kind name signature))
        { draft with sections := draft.sections.insert kind name signature }
  | codec {scalar aliasExpr : String} {codec : Codec} {old : Option Codec} :
      draft.types.get? scalar = some (.scalar aliasExpr old) →
      Adds schema draft (.ok (.codec scalar codec))
        { draft with types := draft.types.insert scalar (.scalar aliasExpr (some codec)) }

theorem LeadsTo.adds {draft : SchemaDraft} {entry : Entry} (h : (draft.add entry).LeadsTo schema) :
    draft.LeadsTo schema ∧ Adds schema draft entry (draft.add entry) := by
  cases entry with
  | error error => exact absurd h (not_leadsTo_refuse draft error)
  | ok declaration =>
    cases declaration with
    | type name definition =>
      simp only [add, declare] at h ⊢
      split_ifs at h ⊢ with hname
      · exact absurd h (not_leadsTo_refuse draft _)
      · obtain ⟨hsome, hdraft⟩ := h.of_insertType
        exact ⟨hdraft, .type (by simpa using hname) hsome⟩
    | operation kind name signature =>
      simp only [add, declare] at h ⊢
      split_ifs at h ⊢ with hname
      · exact absurd h (not_leadsTo_refuse draft _)
      · obtain ⟨hsome, hdraft⟩ := h.of_insertOperation
        exact ⟨hdraft, .operation (by simpa using hname) hsome⟩
    | codec scalar codec =>
      simp only [add, declare] at h ⊢
      split at h
      · rename_i aliasExpr old hget
        exact ⟨h.of_insertType.2, .codec hget⟩
      · exact absurd h (not_leadsTo_refuse draft _)
      · exact absurd h (not_leadsTo_refuse draft _)

theorem LeadsTo.of_addAll {draft : SchemaDraft} {entries : List Entry}
    (h : (draft.addAll entries).LeadsTo schema) : draft.LeadsTo schema := by
  induction entries generalizing draft with
  | nil => exact h
  | cons entry rest ih => exact (ih h).adds.1

theorem eq_toDraft_of_build {draft : SchemaDraft} (h : draft.build = .ok schema) :
    draft = schema.toDraft := by
  rcases draft.build_cases with ⟨-, herror⟩ | ⟨hnone, operations, -, hok⟩
  · cases h.symm.trans herror
  · cases h.symm.trans hok
    have herrors : draft.errors = [] := (List.append_eq_nil_iff.mp hnone).1
    rw [Schema.toDraft, ← herrors]

theorem leadsTo_toDraft (schema : Schema) : schema.toDraft.LeadsTo schema where
  types _ h := h
  operations _ _ h := h
  errors := rfl

/-! A draft with further declarations, beside one without. -/

def FurtherType (schema : Schema) (further : List Entry) (name : String)
    (definition : TypeDefinition) :
    Prop :=
  schema.types.get? name = none ∧ Mentions further (definition.places name)

def FurtherOperation (schema : Schema) (further : List Entry) (kind : OperationKind) (name : String)
    (signature : OperationSignature) : Prop :=
  (schema.sections.operations kind).get? name = none ∧
    Mentions further (Declaration.operation kind name signature).places

structure Enlarges (schema : Schema) (further : List Entry) (base whole : SchemaDraft) : Prop where
  types : OrderedMap.Enlarges (FurtherType schema further) base.types whole.types
  operations : ∀ kind, OrderedMap.Enlarges (FurtherOperation schema further kind)
    (base.sections.operations kind) (whole.sections.operations kind)
  errors : ∀ error ∈ whole.errors, error.IsAbout further

namespace Enlarges

theorem refuse (h : Enlarges schema further base whole) {error : SchemaError}
    (herror : error.IsAbout further) : Enlarges schema further base (whole.refuse error) := by
  refine ⟨h.types, h.operations, ?_⟩
  intro other hother
  rcases List.mem_append.mp hother with hother | hother
  · exact h.errors other hother
  · cases List.mem_singleton.mp hother
    exact herror

theorem insertType (h : Enlarges schema further base whole) (hbase : base.LeadsTo schema)
    {name : String} {definition : TypeDefinition}
    (hfurther : FurtherType schema further name definition) :
    Enlarges schema further base { whole with types := whole.types.insert name definition } :=
  ⟨h.types.insert (hbase.types name hfurther.1) hfurther, h.operations, h.errors⟩

theorem insertOperation (h : Enlarges schema further base whole) (hbase : base.LeadsTo schema)
    {kind : OperationKind} {name : String} {signature : OperationSignature}
    (hfurther : FurtherOperation schema further kind name signature) :
    Enlarges schema further base
      { whole with sections := whole.sections.insert kind name signature } := by
  refine ⟨h.types, ?_, h.errors⟩
  intro other
  simp only [OperationSections.operations_insert]
  split_ifs with hkind
  · subst hkind
    exact (h.operations other).insert (hbase.operations other name hfurther.1) hfurther
  · exact h.operations other

/-- A further entry comes to the whole alone. -/
theorem add_further (h : Enlarges schema further base whole) (hbase : base.LeadsTo schema)
    {entry : Entry} (hmem : entry ∈ further)
    (hnew : ∀ declaration, entry = .ok declaration → schema.Lacks declaration) :
    Enlarges schema further base (whole.add entry) := by
  cases entry with
  | error error => exact h.refuse ⟨_, hmem, rfl⟩
  | ok declaration =>
    have hlacks := hnew declaration rfl
    have hmentions : Mentions further declaration.places :=
      ⟨declaration, hmem, List.Subset.refl _⟩
    cases declaration with
    | type name definition =>
      simp only [add, declare]
      split_ifs
      · exact h.refuse (hmentions.isAbout (definition.name_mem_places name))
      · exact h.insertType hbase ⟨hlacks, hmentions⟩
    | operation kind name signature =>
      simp only [add, declare]
      split_ifs
      · exact h.refuse (hmentions.isAbout List.mem_cons_self)
      · exact h.insertOperation hbase ⟨hlacks, hmentions⟩
    | codec scalar codec =>
      simp only [add, declare]
      split
      · rename_i aliasExpr _ hget
        -- The scalar came with an earlier entry, which already has its places.
        rcases h.types.added _ _ hget with hold | ⟨-, hplaces⟩
        · cases (hbase.types scalar hlacks).symm.trans hold
        · exact h.insertType hbase ⟨hlacks, hplaces⟩
      · exact h.refuse (hmentions.isAbout List.mem_cons_self)
      · exact h.refuse (hmentions.isAbout List.mem_cons_self)

/-- An entry of the schema comes to both and does the same in both. -/
theorem add_both (h : Enlarges schema further base whole) {entry : Entry}
    (hbase : (base.add entry).LeadsTo schema) :
    Enlarges schema further (base.add entry) (whole.add entry) := by
  obtain ⟨-, hadds⟩ := hbase.adds
  generalize base.add entry = next at hadds
  cases hadds with
  | @type name definition hname hsome =>
    have hwhole : whole.types.contains name = false := by
      by_contra hcontains
      obtain ⟨found, hfound⟩ := Option.isSome_iff_exists.mp (Bool.not_eq_false _ ▸ hcontains)
      rcases h.types.added name found hfound with hold | ⟨hnone, -⟩
      · rw [OrderedMap.contains, hold] at hname
        cases hname
      · exact hsome hnone
    simp only [add, declare, hwhole, Bool.false_eq_true, if_false]
    exact ⟨h.types.insert_both name definition, h.operations, h.errors⟩
  | @operation kind name signature hname hsome =>
    have hwhole : (whole.sections.operations kind).contains name = false := by
      by_contra hcontains
      obtain ⟨found, hfound⟩ := Option.isSome_iff_exists.mp (Bool.not_eq_false _ ▸ hcontains)
      rcases (h.operations kind).added name found hfound with hold | ⟨hnone, -⟩
      · rw [OrderedMap.contains, hold] at hname
        cases hname
      · exact hsome hnone
    simp only [add, declare, hwhole, Bool.false_eq_true, if_false]
    refine ⟨h.types, ?_, h.errors⟩
    intro other
    simp only [OperationSections.operations_insert]
    split_ifs
    · exact (h.operations other).insert_both name signature
    · exact h.operations other
  | @codec scalar aliasExpr codec old hget =>
    simp only [add, declare, h.types.kept _ _ hget]
    exact ⟨h.types.insert_both scalar _, h.operations, h.errors⟩

theorem addAll {entries rest all : List Entry} (hall : Interleaves entries rest all)
    (h : Enlarges schema further base whole) (hsub : rest ⊆ further)
    (hnew : ∀ declaration, .ok declaration ∈ rest → schema.Lacks declaration)
    (hbase : (base.addAll entries).LeadsTo schema) :
    Enlarges schema further (base.addAll entries) (whole.addAll all) := by
  induction hall generalizing base whole with
  | nil => exact h
  | @left entry entries rest all _ ih =>
    change ((base.add entry).addAll entries).LeadsTo schema at hbase
    exact ih (h.add_both hbase.of_addAll) hsub hnew hbase
  | @right entry entries rest all _ ih =>
    obtain ⟨hmem, hsub⟩ := List.cons_subset.mp hsub
    refine ih ?_ hsub ?_ hbase
    · apply h.add_further hbase.of_addAll hmem
      rintro declaration rfl
      exact hnew declaration List.mem_cons_self
    · intro declaration hdeclaration
      exact hnew declaration (List.mem_cons_of_mem _ hdeclaration)

end Enlarges

/-- What further declarations make of a schema, wherever they stand. -/
theorem enlarges_of_build {entries all : List Entry}
    (hbuild : (empty.addAll entries).build = .ok schema) (hall : Interleaves entries further all)
    (hnew : ∀ declaration, .ok declaration ∈ further → schema.Lacks declaration) :
    Enlarges schema further schema.toDraft (empty.addAll all) := by
  have hself : Enlarges schema further empty empty := by
    refine ⟨OrderedMap.enlarges_self _ _, fun kind => OrderedMap.enlarges_self _ _, ?_⟩
    intro error herror
    cases herror
  have hdraft := eq_toDraft_of_build hbuild
  rw [← hdraft]
  apply hself.addAll hall (List.Subset.refl _) hnew
  rw [hdraft]
  exact leadsTo_toDraft schema

end SchemaDraft

end GraphQLClient
