/-!
# Ordered maps

Finite maps from names that remember the order in which the names came in. Writing to a known name
keeps its place. `Entries` holds the operations on plain lists of pairs, `OrderedMap` adds that no
name occurs twice.
-/
namespace GraphQLClient

namespace Entries

variable {α β : Type}

def keys (entries : List (String × α)) : List String := entries.map Prod.fst

def get? (key : String) : List (String × α) → Option α
  | [] => none
  | (name, value) :: rest => if name = key then some value else get? key rest

/-- A known name keeps its place and takes the new value, a new name goes to the end. -/
def insert (key : String) (value : α) : List (String × α) → List (String × α)
  | [] => [(key, value)]
  | (name, old) :: rest =>
    if name = key then (name, value) :: rest else (name, old) :: insert key value rest

def ofList (pairs : List (String × α)) : List (String × α) :=
  pairs.foldl (fun entries pair => insert pair.1 pair.2 entries) []

def merge (entries other : List (String × α)) : List (String × α) :=
  other.foldl (fun merged pair => insert pair.1 pair.2 merged) entries

@[simp] theorem mem_keys_insert {key name : String} {value : α} {entries : List (String × α)} :
    name ∈ keys (insert key value entries) ↔ name = key ∨ name ∈ keys entries := by
  induction entries with
  | nil => simp [keys, insert]
  | cons entry rest ih =>
    obtain ⟨first, old⟩ := entry
    simp only [keys] at ih
    by_cases h : first = key
    · simp [keys, insert, h]
    · simp only [keys, insert, h, if_false, List.map_cons, List.mem_cons, ih]
      grind

theorem nodup_keys_insert {key : String} {value : α} {entries : List (String × α)}
    (h : (keys entries).Nodup) : (keys (insert key value entries)).Nodup := by
  induction entries with
  | nil => simp [keys, insert]
  | cons entry rest ih =>
    obtain ⟨first, old⟩ := entry
    by_cases hk : first = key
    · simpa only [keys, insert, hk, if_true, List.map_cons] using h
    · simp only [keys, List.map_cons, List.nodup_cons] at h
      have hi : (keys (insert key value rest)).Nodup := ih h.2
      have hm : first ∉ keys (insert key value rest) := by
        rw [mem_keys_insert]
        exact fun hf => hf.elim hk h.1
      simp only [insert, hk, if_false]
      exact List.nodup_cons.2 ⟨hm, hi⟩

@[simp] theorem get?_insert {key name : String} {value : α} {entries : List (String × α)} :
    get? name (insert key value entries) =
      if key = name then some value else get? name entries := by
  induction entries with
  | nil => simp [get?, insert]
  | cons entry rest ih =>
    obtain ⟨first, old⟩ := entry
    by_cases h : first = key
    · by_cases hn : first = name <;> simp_all [get?, insert]
    · by_cases hn : first = name <;> simp_all [get?, insert]
      intro he
      exact absurd (he.trans rfl).symm h

end Entries

structure OrderedMap (α : Type) where
  entries : List (String × α)
  nodup_keys : (Entries.keys entries).Nodup

namespace OrderedMap

variable {α β : Type}

def empty : OrderedMap α := ⟨[], List.nodup_nil⟩

instance : Inhabited (OrderedMap α) := ⟨empty⟩

def keys (m : OrderedMap α) : List String := Entries.keys m.entries

def values (m : OrderedMap α) : List α := m.entries.map Prod.snd

def isEmpty (m : OrderedMap α) : Bool := m.entries.isEmpty

def get? (m : OrderedMap α) (key : String) : Option α := Entries.get? key m.entries

def contains (m : OrderedMap α) (key : String) : Bool := (m.get? key).isSome

def insert (m : OrderedMap α) (key : String) (value : α) : OrderedMap α :=
  ⟨Entries.insert key value m.entries, Entries.nodup_keys_insert m.nodup_keys⟩

/-- Later pairs win over earlier ones of the same name, in the earlier one's place. -/
def ofList (pairs : List (String × α)) : OrderedMap α :=
  pairs.foldl (fun m pair => m.insert pair.1 pair.2) empty

def sameEntries (same : α → β → Bool) (a : OrderedMap α) (b : OrderedMap β) : Bool :=
  a.entries.length == b.entries.length &&
    a.entries.all fun (key, value) =>
      match b.get? key with
      | some other => same value other
      | none => false

@[simp] theorem get?_insert (m : OrderedMap α) (key name : String) (value : α) :
    (m.insert key value).get? name = if key = name then some value else m.get? name :=
  Entries.get?_insert

@[simp] theorem mem_keys_insert (m : OrderedMap α) (key name : String) (value : α) :
    name ∈ (m.insert key value).keys ↔ name = key ∨ name ∈ m.keys :=
  Entries.mem_keys_insert

end OrderedMap

end GraphQLClient
