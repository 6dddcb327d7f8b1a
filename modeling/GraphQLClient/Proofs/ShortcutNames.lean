import GraphQLClient.Proofs.InputFields

/-!
# Shortcuts of operations

Without required fields every field of an input is promised a shortcut, with one only that field,
and with more none. A shortcut is named by its field with the first letter raised. So the promise is
kept unless two optional fields differ in the case of their first letter only: they would share a
shortcut, and the last of them takes it.
-/
namespace GraphQLClient

open Outcome

namespace Text

variable {a b : String}

/-- The names differ in the case of the first letter, if at all. -/
def SameButFirstCase (a b : String) : Prop :=
  a.toList.head?.map Char.toUpper = b.toList.head?.map Char.toUpper ∧ a.toList.tail = b.toList.tail

instance (a b : String) : Decidable (SameButFirstCase a b) := inferInstanceAs (Decidable (_ ∧ _))

theorem toList_capitalizeFirst (s : String) :
    (capitalizeFirst s).toList = (s.toList.head?.map Char.toUpper).toList ++ s.toList.tail := by
  unfold capitalizeFirst
  cases s.toList with
  | nil => rfl
  | cons first rest => simp

theorem capitalizeFirst_eq_iff : capitalizeFirst a = capitalizeFirst b ↔ SameButFirstCase a b := by
  rw [← String.toList_inj, toList_capitalizeFirst, toList_capitalizeFirst, SameButFirstCase]
  cases a.toList with
  | nil => cases b.toList <;> simp
  | cons first rest => cases b.toList <;> simp

theorem shortcutName_eq_iff : shortcutName a = shortcutName b ↔ SameButFirstCase a b := by
  rw [← capitalizeFirst_eq_iff, shortcutName, shortcutName, String.append_right_inj]

end Text

namespace InputDefinition

/-- The names that are given a shortcut. -/
def abbreviated (input : InputDefinition) : List String :=
  match requiredNames input with
  | [] => names input
  | [only] => [only]
  | _ => []

theorem abbreviated_of_none {input : InputDefinition} (h : requiredNames input = []) :
    abbreviated input = names input := by
  rw [abbreviated, h]

theorem abbreviated_of_single {input : InputDefinition} {only : String}
    (h : requiredNames input = [only]) :
    abbreviated input = [only] := by
  rw [abbreviated, h]

theorem abbreviated_of_several {input : InputDefinition} (h : 2 ≤ (requiredNames input).length) :
    abbreviated input = [] := by
  match hrequired : requiredNames input with
  | [] => simp [hrequired] at h
  | [only] => simp [hrequired] at h
  | first :: second :: rest => rw [abbreviated, hrequired]

theorem shortcutPairs_eq (input : InputDefinition) :
    Operation.shortcutPairs input =
      (abbreviated input).map fun name => (Text.shortcutName name, name) := by
  match hrequired : requiredNames input with
  | [] => simp [Operation.shortcutPairs, abbreviated, hrequired, names]
  | [only] => simp [Operation.shortcutPairs, abbreviated, hrequired]
  | first :: second :: rest => simp [Operation.shortcutPairs, abbreviated, hrequired]

end InputDefinition

@[simp] theorem Entries.get?_keyed (key : String → String) (names : List String) (found : String) :
    get? found (names.map fun name => (key name, name)) =
      names.find? fun name => key name == found := by
  induction names with
  | nil => rfl
  | cons name rest ih =>
    by_cases h : key name = found
    · simp [get?, h]
    · simp [get?, h, ih]

namespace Operation

/-- What is promised of shortcuts, by the number of required fields. No two shortcuts lead to one
field. -/
structure OffersShortcuts (o : Operation) : Prop where
  optional : o.required = [] → ∀ name ∈ InputDefinition.names o.input,
    o.shortcut? (Text.shortcutName name) = some name ∧ o.hasShortcutTo name = true
  single : ∀ only, o.required = [only] → o.shortcut? (Text.shortcutName only) = some only ∧
    ∀ name, o.hasShortcutTo name = true ↔ name = only
  several : 2 ≤ o.required.length → (∀ shortcut, o.shortcut? shortcut = none) ∧
    ∀ name, o.hasShortcutTo name = false
  distinct : ∀ {shortcut other name}, o.shortcut? shortcut = some name →
    o.shortcut? other = some name →
    shortcut = other

variable {o : Operation} {shortcut name : String}

theorem hasShortcutTo_iff :
    o.hasShortcutTo name = true ↔ ∃ shortcut, o.shortcut? shortcut = some name := by
  rw [hasShortcutTo, List.contains_iff_mem, OrderedMap.mem_values_iff]
  exact exists_congr fun _ => OrderedMap.get?_eq_some_iff.symm

namespace Compiled

/-- A shortcut leads to the last of the names that it abbreviates. -/
theorem shortcut?_eq (h : o.Compiled) (shortcut : String) :
    o.shortcut? shortcut = (InputDefinition.abbreviated o.input).reverse.find? fun name =>
      Text.shortcutName name == shortcut := by
  rw [shortcut?, h.shortcuts, OrderedMap.get?_ofList, InputDefinition.shortcutPairs_eq,
    ← List.map_reverse, Entries.get?_keyed]

/-- A shortcut abbreviates the field that it leads to. -/
theorem shortcut?_eq_some (h : o.Compiled) (hshortcut : o.shortcut? shortcut = some name) :
    name ∈ InputDefinition.abbreviated o.input ∧ shortcut = Text.shortcutName name := by
  rw [h.shortcut?_eq] at hshortcut
  have hname : Text.shortcutName name = shortcut := by simpa using List.find?_some hshortcut
  exact ⟨List.mem_reverse.mp (List.mem_of_find?_eq_some hshortcut), hname.symm⟩

theorem hasShortcutTo_iff (h : o.Compiled) :
    o.hasShortcutTo name = true ↔ o.shortcut? (Text.shortcutName name) = some name := by
  rw [Operation.hasShortcutTo_iff]
  constructor
  · rintro ⟨shortcut, hshortcut⟩
    rwa [(h.shortcut?_eq_some hshortcut).2] at hshortcut
  · exact fun hshortcut => ⟨_, hshortcut⟩

/-- Some field takes the shortcut of each abbreviated one. -/
theorem exists_shortcut (h : o.Compiled) (hname : name ∈ InputDefinition.abbreviated o.input) :
    ∃ other, o.shortcut? (Text.shortcutName name) = some other := by
  rw [h.shortcut?_eq, ← Option.isSome_iff_exists, List.find?_isSome]
  exact ⟨name, List.mem_reverse.mpr hname, beq_iff_eq.mpr rfl⟩

/-- A field keeps its shortcut if no other one takes it. -/
theorem shortcut?_self (h : o.Compiled) (hdistinct : ∀ a ∈ InputDefinition.abbreviated o.input,
    ∀ b ∈ InputDefinition.abbreviated o.input, Text.SameButFirstCase a b → a = b)
    (hname : name ∈ InputDefinition.abbreviated o.input) :
    o.shortcut? (Text.shortcutName name) = some name := by
  obtain ⟨other, hother⟩ := h.exists_shortcut hname
  obtain ⟨hmem, hsame⟩ := h.shortcut?_eq_some hother
  have hown : name = other := hdistinct name hname other hmem (Text.shortcutName_eq_iff.mp hsame)
  rw [hother, hown]

theorem shortcut?_of_single (h : o.Compiled) {only : String} (hrequired : o.required = [only]) :
    o.shortcut? shortcut = some name ↔ shortcut = Text.shortcutName only ∧ name = only := by
  have hnames := InputDefinition.abbreviated_of_single (h.required.symm.trans hrequired)
  constructor
  · intro hshortcut
    obtain ⟨hmem, hnamed⟩ := h.shortcut?_eq_some hshortcut
    have hown : name = only := List.mem_singleton.mp (hnames ▸ hmem)
    exact ⟨hown ▸ hnamed, hown⟩
  · rintro ⟨rfl, rfl⟩
    apply h.shortcut?_self
    · intro a ha b hb _
      rw [hnames, List.mem_singleton] at ha hb
      exact ha.trans hb.symm
    · exact hnames ▸ List.mem_singleton_self name

theorem shortcut?_of_several (h : o.Compiled) (hrequired : 2 ≤ o.required.length)
    (shortcut : String) :
    o.shortcut? shortcut = none := by
  rw [h.required] at hrequired
  rw [h.shortcut?_eq, InputDefinition.abbreviated_of_several hrequired,
    List.reverse_nil, List.find?_nil]

theorem shortcut_unique (h : o.Compiled) {other : String}
    (hshortcut : o.shortcut? shortcut = some name) (hother : o.shortcut? other = some name) :
    shortcut = other :=
  (h.shortcut?_eq_some hshortcut).2.trans (h.shortcut?_eq_some hother).2.symm

/-- With a required field no two fields are abbreviated, so the promise is at stake without one
only. -/
theorem offersShortcuts_iff (h : o.Compiled) :
    o.OffersShortcuts ↔ (o.required = [] → ∀ a ∈ InputDefinition.names o.input,
      ∀ b ∈ InputDefinition.names o.input, Text.SameButFirstCase a b → a = b) := by
  constructor
  · intro hoffers hrequired a ha b hb hsame
    have hfirst := (hoffers.optional hrequired a ha).1
    have hsecond := (hoffers.optional hrequired b hb).1
    rw [Text.shortcutName_eq_iff.mpr hsame, hsecond] at hfirst
    exact (Option.some.inj hfirst).symm
  · intro hdistinct
    refine ⟨?_, ?_, ?_, h.shortcut_unique⟩
    · intro hrequired name hname
      have hnames := InputDefinition.abbreviated_of_none (h.required.symm.trans hrequired)
      have hself : o.shortcut? (Text.shortcutName name) = some name := by
        apply h.shortcut?_self
        · exact hnames.symm ▸ hdistinct hrequired
        · exact hnames.symm ▸ hname
      exact ⟨hself, h.hasShortcutTo_iff.mpr hself⟩
    · intro only hrequired
      refine ⟨(h.shortcut?_of_single hrequired).mpr ⟨rfl, rfl⟩, fun name => ?_⟩
      rw [h.hasShortcutTo_iff, h.shortcut?_of_single hrequired]
      exact ⟨And.right, fun hname => ⟨hname ▸ rfl, hname⟩⟩
    · intro hrequired
      refine ⟨h.shortcut?_of_several hrequired, fun name => ?_⟩
      rw [Bool.eq_false_iff, ne_eq, h.hasShortcutTo_iff, h.shortcut?_of_several hrequired]
      exact nofun

end Compiled

end Operation

/-- An operation of a built schema offers the shortcuts promised exactly when it has a required
field or no two of its fields differ in the case of their first letter only. Without required fields
a shortcut leads to the last of the fields it abbreviates, and a field has one exactly when its own
leads to it. -/
theorem shortcuts_offered_iff {draft : SchemaDraft} {schema : Schema}
    (hok : draft.build = .ok schema) {o : Operation} (ho : o ∈ schema.operations) :
    (o.OffersShortcuts ↔ (o.required = [] → ∀ a ∈ InputDefinition.names o.input,
      ∀ b ∈ InputDefinition.names o.input, Text.SameButFirstCase a b → a = b)) ∧
    (o.required = [] → ∀ shortcut, o.shortcut? shortcut =
      (InputDefinition.names o.input).reverse.find? fun name =>
      Text.shortcutName name == shortcut) ∧
    (∀ only, o.required = [only] → ∀ shortcut name, o.shortcut? shortcut = some name ↔
      shortcut = Text.shortcutName only ∧ name = only) ∧
    (2 ≤ o.required.length → ∀ shortcut, o.shortcut? shortcut = none) ∧
    (∀ shortcut name, o.shortcut? shortcut = some name → shortcut = Text.shortcutName name) ∧
    ∀ name, o.hasShortcutTo name = true ↔ o.shortcut? (Text.shortcutName name) = some name := by
  have hcompiled := Schema.compiled hok ho
  refine ⟨hcompiled.offersShortcuts_iff, ?_, fun only hrequired shortcut name =>
    hcompiled.shortcut?_of_single hrequired, hcompiled.shortcut?_of_several,
    fun shortcut name hshortcut => (hcompiled.shortcut?_eq_some hshortcut).2, fun name =>
    hcompiled.hasShortcutTo_iff⟩
  intro hrequired shortcut
  rw [hcompiled.shortcut?_eq, InputDefinition.abbreviated_of_none
    (hcompiled.required.symm.trans hrequired)]

def pagesDraft : SchemaDraft :=
  SchemaDraft.empty.addAll [
    .ok (.operation .query "pages" ⟨some (.ofList [("first?", "Int"), ("after?", "String")]),
      "[ID!]!"⟩)]

theorem pages_offered :
    ∃ schema, pagesDraft.build = .ok schema ∧ ∃ o ∈ schema.operations,
      InputDefinition.names o.input = ["first", "after"] ∧ o.shortcut? "byFirst" = some "first" ∧
      o.shortcut? "byAfter" = some "after" ∧ o.OffersShortcuts := by
  have hviews : (SchemaDraft.compileAll pagesDraft.types pagesDraft.sections.toList).map
      (·.map fun o => (InputDefinition.names o.input, o.shortcut? "byFirst",
        o.shortcut? "byAfter")) =
        .ok [(["first", "after"], some "first", some "after")] := by decide +kernel
  obtain ⟨operations, hok, o, ho, hview⟩ :=
    SchemaDraft.exists_operation (by decide +kernel) hviews (List.mem_singleton_self _)
  simp only [Prod.mk.injEq] at hview
  obtain ⟨hnames, hfirst, hafter⟩ := hview
  refine ⟨_, hok, o, ho, hnames, hfirst, hafter, (shortcuts_offered_iff hok ho).1.mpr fun _ => ?_⟩
  rw [hnames]
  decide

def lookupDraft : SchemaDraft :=
  SchemaDraft.empty.addAll [
    .ok (.operation .query "find" ⟨some (.ofList [("id?", "Int"), ("Id?", "String")]), "Int"⟩)]

/-- The later field takes the shortcut, and the earlier one has none. -/
theorem shared_not_offered :
    ∃ schema, lookupDraft.build = .ok schema ∧ ∃ o ∈ schema.operations,
      o.required = [] ∧ InputDefinition.names o.input = ["id", "Id"] ∧
      o.shortcut? "byId" = some "Id" ∧
      o.hasShortcutTo "id" = false ∧ ¬ o.OffersShortcuts := by
  have hviews : (SchemaDraft.compileAll lookupDraft.types lookupDraft.sections.toList).map
      (·.map fun o => ((o.required, InputDefinition.names o.input), o.shortcut? "byId",
        o.hasShortcutTo "id")) =
        .ok [(([], ["id", "Id"]), some "Id", false)] := by decide +kernel
  obtain ⟨operations, hok, o, ho, hview⟩ :=
    SchemaDraft.exists_operation (by decide +kernel) hviews (List.mem_singleton_self _)
  simp only [Prod.mk.injEq] at hview
  obtain ⟨⟨hrequired, hnames⟩, hshared, hnone⟩ := hview
  refine ⟨_, hok, o, ho, hrequired, hnames, hshared, hnone, ?_⟩
  intro hoffers
  have hself := (hoffers.optional hrequired "id" (hnames ▸ List.mem_cons_self)).2
  rw [hnone] at hself
  exact Bool.false_ne_true hself

end GraphQLClient
