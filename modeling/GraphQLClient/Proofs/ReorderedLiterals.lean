import GraphQLClient.Proofs.DistinctDeclarations
import GraphQLClient.Proofs.NestedValues
import GraphQLClient.Proofs.Outcomes
import Mathlib.Data.List.Perm.Basic

/-!
# Literals in another order

What a literal declares, with the problems of its malformed entries, is the same up to its order
when entries and the operations of a section change places. No key of a literal is repeated, so
neither is a declaration, and the drafts have the same contents.
-/
namespace GraphQLClient

namespace OperationKind

@[simp] theorem ofSectionName?_sectionName (kind : OperationKind) :
    ofSectionName? kind.sectionName = some kind := by
  cases kind <;> decide

theorem sectionName_of_ofSectionName? {name : String} {kind : OperationKind}
    (h : ofSectionName? name = some kind) : name = kind.sectionName := by
  have hfound := List.find?_some h
  exact (beq_iff_eq.mp hfound).symm

end OperationKind

namespace SchemaLiteral

open SchemaDraft

inductive EntryReordered : String × Json → String × Json → Prop where
  | same (entry : String × Json) : EntryReordered entry entry
  | operations {name : String} {kind : OperationKind} {before after : List (String × Json)} :
    OperationKind.ofSectionName? name = some kind → before.Perm after →
      EntryReordered (name, .object before) (name, .object after)

inductive Reordered : Json → Json → Prop where
  | same (literal : Json) : Reordered literal literal
  | entries {before middle after : List (String × Json)} :
      List.Forall₂ EntryReordered before middle →
    middle.Perm after → Reordered (.object before) (.object after)

theorem EntryReordered.readEntry_perm {a b : String × Json} (h : EntryReordered a b) :
    (readEntry a.1 a.2).Perm (readEntry b.1 b.2) := by
  cases h with
  | same entry => exact List.Perm.refl _
  | operations hkind hperm =>
    simp only [readEntry, hkind, readSection]
    exact hperm.map _

theorem Reordered.read_perm {a b : Json} (h : Reordered a b) : (read a).Perm (read b) := by
  cases h with
  | same literal => exact List.Perm.refl _
  | @entries before middle after hentries hperm =>
    have hmiddle : (read (.object before)).Perm (read (.object middle)) := by
      clear hperm
      induction hentries with
      | nil => exact List.Perm.refl _
      | cons hentry _ ih => exact hentry.readEntry_perm.append ih
    exact hmiddle.trans (hperm.flatMap_right _)

/-! What a single entry declares is under its own name, or in its section. -/

theorem mem_readSection {kind : OperationKind} {value : Json} {entry : Entry}
    (h : entry ∈ readSection kind value) :
    (∃ error, entry = .error error) ∨
      ∃ name signature, entry = .ok (.operation kind name signature) := by
  cases value with
  | object operations =>
    obtain ⟨⟨name, operation⟩, -, rfl⟩ := List.mem_map.mp h
    dsimp only
    cases readOperation kind name operation with
    | error error => exact Or.inl ⟨error, rfl⟩
    | ok signature => exact Or.inr ⟨name, signature, rfl⟩
  | _ => exact Or.inl ⟨_, List.mem_singleton.mp h⟩

theorem mem_readEntry {name : String} {value : Json} {entry : Entry}
    (h : entry ∈ readEntry name value) :
    (∃ error, entry = .error error) ∨ (∃ definition, entry = .ok (.type name definition)) ∨
      ∃ kind operation signature, name = kind.sectionName ∧
        entry = .ok (.operation kind operation signature) := by
  unfold readEntry at h
  split at h
  · rename_i kind hkind
    rcases mem_readSection h with herror | ⟨operation, signature, hentry⟩
    · exact Or.inl herror
    · exact Or.inr (Or.inr
        ⟨kind, operation, signature, OperationKind.sectionName_of_ofSectionName? hkind, hentry⟩)
  · have hentry := List.mem_singleton.mp h
    cases hread : readType name value with
    | error error =>
      rw [hread] at hentry
      exact Or.inl ⟨error, hentry⟩
    | ok definition =>
      rw [hread] at hentry
      exact Or.inr (Or.inl ⟨definition, hentry⟩)

theorem types_of_readEntry (name : String) (value : Json) :
    (Entries.keys ((readEntry name value).filterMap typeOf?)).Sublist [name] := by
  unfold readEntry
  split
  · rename_i kind _
    have hnone : (readSection kind value).filterMap typeOf? = [] := by
      rw [List.filterMap_eq_nil_iff]
      intro entry hentry
      rcases mem_readSection hentry with ⟨error, rfl⟩ | ⟨operation, signature, rfl⟩
      · rfl
      · rfl
    rw [hnone]
    exact List.nil_sublist _
  · cases readType name value with
    | error error => exact List.nil_sublist _
    | ok definition => exact List.Sublist.refl _

theorem operations_of_readSection (kind : OperationKind) {value : Json}
    (h : value.hasDistinctKeys = true) :
    (Entries.keys ((readSection kind value).filterMap (operationOf? kind))).Nodup := by
  cases value with
  | object operations =>
    rw [readSection, List.filterMap_map]
    refine List.Sublist.nodup (Entries.keys_filterMap_sublist ?_ operations)
      (decide_eq_true_iff.mp h)
    rintro ⟨name, value⟩ found hfound
    cases hread : readOperation kind name value with
    | error error => simp [hread, operationOf?, Except.map, Except.toOption] at hfound
    | ok signature =>
      simp only [Function.comp_apply, hread, operationOf?, Except.map, Except.toOption,
        Option.bind_some, Declaration.operation?, if_true, Option.some.injEq] at hfound
      rw [← hfound]
  | _ => exact List.nodup_nil

theorem operations_of_readEntry {kind : OperationKind} {name : String}
    (hne : name ≠ kind.sectionName) (value : Json) :
    (readEntry name value).filterMap (operationOf? kind) = [] := by
  rw [List.filterMap_eq_nil_iff]
  intro entry hentry
  rcases mem_readEntry hentry with
    ⟨error, rfl⟩ | ⟨definition, rfl⟩ | ⟨other, operation, signature, hname, rfl⟩
  · rfl
  · rfl
  · have hother : other ≠ kind := by
      rintro rfl
      exact hne hname
    simp only [operationOf?, Except.toOption, Option.bind_some,
      Declaration.operation?, hother, if_false]

theorem codec_not_mem_read (literal : Json) (scalar : String) (codec : Codec) :
    .ok (.codec scalar codec) ∉ read literal := by
  intro hmem
  cases literal with
  | object entries =>
    obtain ⟨⟨name, value⟩, -, hmem⟩ := List.mem_flatMap.mp hmem
    rcases mem_readEntry hmem with ⟨_, hentry⟩ | ⟨_, hentry⟩ | ⟨_, _, _, -, hentry⟩
    all_goals cases hentry
  | _ => cases List.mem_singleton.mp hmem

theorem nodup_types {entries : List (String × Json)} (h : (Entries.keys entries).Nodup) :
    (Entries.keys ((read (.object entries)).filterMap typeOf?)).Nodup := by
  rw [read, List.filterMap_flatMap, Entries.keys, List.map_flatMap, List.nodup_flatMap]
  constructor
  · rintro ⟨name, value⟩ -
    exact (types_of_readEntry name value).nodup (List.nodup_singleton name)
  · refine (List.pairwise_map.mp h).imp ?_
    rintro ⟨name, value⟩ ⟨other, value'⟩ hne key hkey hkey'
    have hname := List.mem_singleton.mp ((types_of_readEntry name value).subset hkey)
    have hother := List.mem_singleton.mp ((types_of_readEntry other value').subset hkey')
    exact hne (hname.symm.trans hother)

/-- Only one entry is the section of a kind. -/
theorem nodup_operations (kind : OperationKind) {entries : List (String × Json)}
    (h : (Entries.keys entries).Nodup)
    (hvalues : ∀ entry ∈ entries, entry.2.hasDistinctKeys = true) :
    (Entries.keys ((read (.object entries)).filterMap (operationOf? kind))).Nodup := by
  rw [read, List.filterMap_flatMap, Entries.keys, List.map_flatMap, List.nodup_flatMap]
  constructor
  · rintro ⟨name, value⟩ hmem
    by_cases hname : name = kind.sectionName
    · subst hname
      simp only [readEntry, OperationKind.ofSectionName?_sectionName]
      exact operations_of_readSection kind (hvalues _ hmem)
    · simp only [operations_of_readEntry hname]
      exact List.nodup_nil
  · refine (List.pairwise_map.mp h).imp ?_
    rintro ⟨name, value⟩ ⟨other, value'⟩ hne key hkey hkey'
    have hsection : ∀ {name : String} {value : Json},
        key ∈ ((readEntry name value).filterMap (operationOf? kind)).map Prod.fst →
          name = kind.sectionName := by
      intro name value hkey
      by_contra hname
      rw [operations_of_readEntry hname] at hkey
      cases hkey
    exact hne ((hsection hkey).trans (hsection hkey').symm)

theorem distinct_read {literal : Json} (h : literal.all Json.hasDistinctKeys = true) :
    Distinct (read literal) := by
  cases literal with
  | object entries =>
    have hkeys : (Entries.keys entries).Nodup := decide_eq_true_iff.mp (Json.all_self h)
    have hvalues : ∀ entry ∈ entries, entry.2.hasDistinctKeys = true :=
      fun entry hmem => Json.all_self (Json.allFields_iff.mp (Json.all_object h) entry hmem)
    exact ⟨nodup_types hkeys, fun kind => nodup_operations kind hkeys hvalues, codec_not_mem_read _⟩
  | _ => exact ⟨List.nodup_nil, fun _ => List.nodup_nil, codec_not_mem_read _⟩

end SchemaLiteral

namespace SchemaDraft

theorem Distinct.perm {entries others : List Entry} (h : Distinct entries)
    (hperm : entries.Perm others) :
    Distinct others := by
  refine ⟨?_, ?_, ?_⟩
  · exact ((hperm.filterMap typeOf?).map Prod.fst).nodup_iff.mp h.types
  · intro kind
    exact ((hperm.filterMap (operationOf? kind)).map Prod.fst).nodup_iff.mp (h.operations kind)
  · intro scalar codec hmem
    exact h.no_codec scalar codec (hperm.mem_iff.mpr hmem)

structure SameContents (a b : SchemaDraft) : Prop where
  types : a.types.entries.Perm b.types.entries
  operations : ∀ kind, (a.sections.operations kind).entries.Perm
    (b.sections.operations kind).entries
  errors : a.errors.Perm b.errors

theorem sameContents_of_reordered {a b : Json} (ha : a.all Json.hasDistinctKeys = true)
    (h : SchemaLiteral.Reordered a b) : (ofJson a).SameContents (ofJson b) := by
  have hread := h.read_perm
  have hdistinct := SchemaLiteral.distinct_read ha
  have hbefore := holds_addAll hdistinct
  have hafter := holds_addAll (hdistinct.perm hread)
  constructor
  · rw [ofJson, hbefore.types, ofJson, hafter.types]
    exact hread.filterMap typeOf?
  · intro kind
    rw [ofJson, hbefore.operations kind, ofJson, hafter.operations kind]
    exact hread.filterMap (operationOf? kind)
  · rw [ofJson, hbefore.errors, ofJson, hafter.errors]
    exact hread.filterMap errorOf?

end SchemaDraft

namespace Schema

structure Outline where
  types : List (String × String)
  operations : List (String × List (String × String) × String)
  deriving DecidableEq

def outline (schema : Schema) : Outline where
  types := schema.types.entries.map fun entry => (entry.1, (SchemaLiteral.writeType entry.2).text)
  operations := schema.operations.map fun o =>
    (o.qualifiedName, o.variableTypes.entries, o.returnType)

def outlineOf (verdict : Except (List SchemaError) Schema) : Except (List String) Outline :=
  (verdict.map outline).mapError (·.map SchemaError.message)

open Outcome

variable {verdict : Except (List SchemaError) Schema}

theorem accepted_of_outline {seen : Outline} (h : outlineOf verdict = .ok seen) :
    ∃ schema, verdict = .ok schema ∧ schema.outline = seen :=
  map_eq_ok.mp (mapError_eq_ok.mp h)

theorem refused_of_outline {messages : List String} (h : outlineOf verdict = .error messages) :
    ∃ errors, verdict = .error errors ∧ errors.map SchemaError.message = messages := by
  obtain ⟨errors, herrors, hmessages⟩ := mapError_eq_error.mp h
  exact ⟨errors, map_eq_error.mp herrors, hmessages⟩

end Schema

end GraphQLClient
