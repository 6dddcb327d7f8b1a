import GraphQLClient.OrderedMap
import Mathlib.Data.List.Induction
import Mathlib.Data.List.Nodup
import Mathlib.Tactic.Common

/-!
# What maps hold

Looking a name up gives an entry, and every entry can be looked up, as no name occurs twice.
-/
namespace GraphQLClient

namespace Entries

variable {α : Type}

theorem mem_of_get? {key : String} {value : α} {entries : List (String × α)}
    (h : get? key entries = some value) : (key, value) ∈ entries := by
  induction entries with
  | nil => cases h
  | cons entry rest ih =>
    obtain ⟨name, first⟩ := entry
    simp only [get?] at h
    split_ifs at h with hn
    · cases h; subst hn; exact List.mem_cons_self
    · exact List.mem_cons_of_mem _ (ih h)

theorem get?_of_mem {key : String} {value : α} {entries : List (String × α)}
    (hnodup : (keys entries).Nodup) (h : (key, value) ∈ entries) :
    get? key entries = some value := by
  induction entries with
  | nil => cases h
  | cons entry rest ih =>
    obtain ⟨name, first⟩ := entry
    simp only [keys, List.map_cons, List.nodup_cons] at hnodup
    rcases List.mem_cons.mp h with heq | hrest
    · cases heq; simp [get?]
    · have hne : name ≠ key := by
        rintro rfl
        exact hnodup.1 (List.mem_map_of_mem hrest)
      simp only [get?, hne, if_false]
      exact ih hnodup.2 hrest

theorem get?_eq_none_iff {key : String} {entries : List (String × α)} :
    get? key entries = none ↔ key ∉ keys entries := by
  induction entries with
  | nil => simp [get?, keys]
  | cons entry rest ih =>
    obtain ⟨name, value⟩ := entry
    simp only [keys] at ih
    by_cases h : name = key
    · simp [get?, keys, h]
    · simp [get?, keys, h, ih, Ne.symm h]

theorem mem_insert {key name : String} {value found : α}
    {entries : List (String × α)} (h : (name, found) ∈ insert key value entries) :
    found = value ∨ (name, found) ∈ entries := by
  induction entries with
  | nil => cases List.mem_singleton.mp h; exact Or.inl rfl
  | cons entry rest ih =>
    obtain ⟨first, old⟩ := entry
    simp only [insert] at h
    split_ifs at h
    · rcases List.mem_cons.mp h with heq | hrest
      · cases heq; exact Or.inl rfl
      · exact Or.inr (List.mem_cons_of_mem _ hrest)
    · rcases List.mem_cons.mp h with heq | hrest
      · cases heq; exact Or.inr List.mem_cons_self
      · exact (ih hrest).imp_right (List.mem_cons_of_mem _)

theorem insert_new {key : String} {value : α} {entries : List (String × α)}
    (h : key ∉ keys entries) : insert key value entries = entries ++ [(key, value)] := by
  induction entries with
  | nil => rfl
  | cons entry rest ih =>
    obtain ⟨first, old⟩ := entry
    simp only [keys, List.map_cons, List.mem_cons, not_or] at h
    rw [insert, if_neg (Ne.symm h.1), ih h.2]
    rfl

theorem keys_filterMap_sublist {β : Type} {f : String × α → Option (String × β)}
    (hf : ∀ entry found, f entry = some found → found.1 = entry.1) (entries : List (String × α)) :
    (keys (entries.filterMap f)).Sublist (keys entries) := by
  induction entries with
  | nil => exact List.Sublist.slnil
  | cons entry rest ih =>
    cases hentry : f entry with
    | none =>
      rw [List.filterMap_cons_none hentry]
      exact ih.cons _
    | some found =>
      rw [List.filterMap_cons_some hentry]
      have hkey := hf entry found hentry
      simp only [keys, List.map_cons, hkey]
      exact ih.cons_cons _

theorem ofList_of_nodup {entries : List (String × α)} (h : (keys entries).Nodup) :
    ofList entries = entries := by
  have hfold : ∀ rest done : List (String × α), (keys (done ++ rest)).Nodup →
      rest.foldl (fun entries pair => insert pair.1 pair.2 entries) done = done ++ rest := by
    intro rest
    induction rest with
    | nil => exact fun done _ => (List.append_nil done).symm
    | cons entry rest ih =>
      intro done hdone
      have hnew : entry.1 ∉ keys done := by
        simp only [keys, List.map_append, List.map_cons, List.nodup_append] at hdone
        exact fun hmem => hdone.2.2 _ hmem _ List.mem_cons_self rfl
      rw [List.foldl_cons, insert_new hnew, ih]
      · simp
      · simpa using hdone
  exact hfold entries [] h

end Entries

namespace OrderedMap

variable {α : Type} {m : OrderedMap α} {key : String} {value : α}

theorem get?_eq_some_iff : m.get? key = some value ↔ (key, value) ∈ m.entries :=
  ⟨Entries.mem_of_get?, Entries.get?_of_mem m.nodup_keys⟩

@[simp] theorem get?_ofList {pairs : List (String × α)} :
    (ofList pairs).get? key = Entries.get? key pairs.reverse := by
  induction pairs using List.reverseRecOn with
  | nil => rfl
  | append_singleton front pair ih =>
    have hinsert : ofList (front ++ [pair]) = (ofList front).insert pair.1 pair.2 := by
      simp [ofList]
    rw [hinsert, get?_insert, ih, List.reverse_concat, Entries.get?]

theorem mem_of_get?_ofList {pairs : List (String × α)} (h : (ofList pairs).get? key = some value) :
    (key, value) ∈ pairs := by
  rw [get?_ofList] at h
  exact List.mem_reverse.mp (Entries.mem_of_get? h)

@[simp] theorem mem_keys_ofList {pairs : List (String × α)} :
    key ∈ (ofList pairs).keys ↔ key ∈ Entries.keys pairs := by
  have hnone : key ∉ (ofList pairs).keys ↔ key ∉ Entries.keys pairs := by
    rw [keys, ← Entries.get?_eq_none_iff, ← get?, get?_ofList, Entries.get?_eq_none_iff]
    simp [Entries.keys]
  exact not_iff_not.mp hnone

theorem ext_entries {a b : OrderedMap α} (h : a.entries = b.entries) : a = b := by
  cases a
  cases b
  cases h
  rfl

@[simp] theorem entries_ofList (pairs : List (String × α)) :
    (ofList pairs).entries = Entries.ofList pairs := by
  have hfold : ∀ (rest : List (String × α)) (m : OrderedMap α),
      (rest.foldl (fun m pair => m.insert pair.1 pair.2) m).entries =
        rest.foldl (fun entries pair => Entries.insert pair.1 pair.2 entries) m.entries := by
    intro rest
    induction rest with
    | nil => exact fun _ => rfl
    | cons pair rest ih => exact fun m => ih (m.insert pair.1 pair.2)
  exact hfold pairs empty

theorem ofList_entries (m : OrderedMap α) : ofList m.entries = m :=
  ext_entries ((entries_ofList m.entries).trans (Entries.ofList_of_nodup m.nodup_keys))

theorem contains_eq_false_iff : m.contains key = false ↔ key ∉ m.keys := by
  rw [contains, Option.isSome_eq_false_iff, Option.isNone_iff_eq_none]
  exact Entries.get?_eq_none_iff

theorem insert_new (h : m.contains key = false) :
    (m.insert key value).entries = m.entries ++ [(key, value)] :=
  Entries.insert_new (contains_eq_false_iff.mp h)

/-- Maps that differ in their order only give the same answers, and the other way round. -/
theorem perm_iff {a b : OrderedMap α} :
    a.entries.Perm b.entries ↔ ∀ key, a.get? key = b.get? key := by
  constructor
  · intro h key
    apply Option.ext
    intro value
    rw [get?_eq_some_iff, get?_eq_some_iff, h.mem_iff]
  · intro h
    refine (List.perm_ext_iff_of_nodup (List.Nodup.of_map Prod.fst a.nodup_keys)
      (List.Nodup.of_map Prod.fst b.nodup_keys)).mpr ?_
    rintro ⟨key, value⟩
    rw [← get?_eq_some_iff, ← get?_eq_some_iff, h]

@[simp] theorem mem_values_iff : value ∈ m.values ↔ ∃ key, (key, value) ∈ m.entries := by
  simp [values]

end OrderedMap

end GraphQLClient
