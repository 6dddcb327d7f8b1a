import GraphQLClient.Json.Reader
import GraphQLClient.Proofs.OrderedMaps
import GraphQLClient.Selection.Basic
import GraphQLClient.Text.Basic

/-!
# Values in values

Conditions on all parts of a value and on all nodes of a selection, at any depth.
-/
namespace GraphQLClient

mutual

def Json.all (p : Json → Bool) : Json → Bool
  | .array items => p (.array items) && Json.allItems p items
  | .object fields => p (.object fields) && Json.allFields p fields
  | value => p value

def Json.allItems (p : Json → Bool) : List Json → Bool
  | [] => true
  | item :: rest => item.all p && Json.allItems p rest

def Json.allFields (p : Json → Bool) : List (String × Json) → Bool
  | [] => true
  | (_, value) :: rest => value.all p && Json.allFields p rest

end

mutual

def Node.all (p : Node → Bool) : Node → Bool
  | .leaf key arguments => p (.leaf key arguments)
  | .block key arguments children => p (.block key arguments children) && Node.allNodes p children

def Node.allNodes (p : Node → Bool) : List Node → Bool
  | [] => true
  | node :: rest => node.all p && Node.allNodes p rest

end

namespace Json

variable {p : Json → Bool} {items : List Json} {fields : List (String × Json)}

theorem all_self {value : Json} (h : value.all p = true) : p value = true := by
  cases value with
  | array items => exact (Bool.and_eq_true_iff.mp h).1
  | object fields => exact (Bool.and_eq_true_iff.mp h).1
  | _ => exact h

theorem all_array (h : (Json.array items).all p = true) : allItems p items = true :=
  (Bool.and_eq_true_iff.mp h).2

theorem all_object (h : (Json.object fields).all p = true) : allFields p fields = true :=
  (Bool.and_eq_true_iff.mp h).2

theorem allItems_cons {item : Json} (h : allItems p (item :: items) = true) :
    item.all p = true ∧ allItems p items = true :=
  Bool.and_eq_true_iff.mp h

theorem allFields_cons {name : String} {value : Json}
    (h : allFields p ((name, value) :: fields) = true) :
    value.all p = true ∧ allFields p fields = true :=
  Bool.and_eq_true_iff.mp h

theorem allItems_iff : allItems p items = true ↔ ∀ item ∈ items, item.all p = true := by
  induction items with
  | nil => simp [allItems]
  | cons item rest ih => simp only [allItems, Bool.and_eq_true, List.forall_mem_cons, ih]

theorem allFields_iff : allFields p fields = true ↔ ∀ entry ∈ fields, entry.2.all p = true := by
  induction fields with
  | nil => simp [allFields]
  | cons entry rest ih => simp only [allFields, Bool.and_eq_true, List.forall_mem_cons, ih]

def hasNames : Json → Bool
  | .object fields => fields.all fun field => Text.isName field.1
  | _ => true

def hasDistinctKeys : Json → Bool
  | .object fields => decide (Entries.keys fields).Nodup
  | _ => true

mutual

theorem distinct_uniqueKeys (value : Json) : (uniqueKeys value).all hasDistinctKeys = true := by
  cases value with
  | array items => exact Bool.and_eq_true_iff.mpr ⟨rfl, distinct_uniqueKeysItems items⟩
  | object fields =>
    have hmap := OrderedMap.entries_ofList (uniqueKeysFields fields)
    refine Bool.and_eq_true_iff.mpr ⟨decide_eq_true ?_, allFields_iff.mpr ?_⟩
    · rw [← hmap]
      exact OrderedMap.nodup_keys _
    · intro entry hentry
      rw [← hmap] at hentry
      have hmem := OrderedMap.mem_of_get?_ofList (OrderedMap.get?_eq_some_iff.mpr hentry)
      exact allFields_iff.mp (distinct_uniqueKeysFields fields) entry hmem
  | _ => rfl

theorem distinct_uniqueKeysItems (items : List Json) :
    allItems hasDistinctKeys (uniqueKeysItems items) = true := by
  cases items with
  | nil => rfl
  | cons item rest =>
    exact Bool.and_eq_true_iff.mpr ⟨distinct_uniqueKeys item, distinct_uniqueKeysItems rest⟩

theorem distinct_uniqueKeysFields (fields : List (String × Json)) :
    allFields hasDistinctKeys (uniqueKeysFields fields) = true := by
  cases fields with
  | nil => rfl
  | cons entry rest =>
    exact Bool.and_eq_true_iff.mpr ⟨distinct_uniqueKeys entry.2, distinct_uniqueKeysFields rest⟩

end

theorem distinct_parse {text : String} {value : Json} (h : parse text = .ok value) :
    value.all hasDistinctKeys = true := by
  unfold parse at h
  split at h
  · cases h
    exact distinct_uniqueKeys _
  · cases h

end Json

namespace Node

variable {p : Node → Bool} {nodes : List Node}

theorem all_self {node : Node} (h : node.all p = true) : p node = true := by
  cases node with
  | leaf key arguments => exact h
  | block key arguments children => exact (Bool.and_eq_true_iff.mp h).1

theorem all_block {key : String} {arguments : Option Json} {children : List Node}
    (h : (Node.block key arguments children).all p = true) : allNodes p children = true :=
  (Bool.and_eq_true_iff.mp h).2

theorem allNodes_cons {node : Node} (h : allNodes p (node :: nodes) = true) :
    node.all p = true ∧ allNodes p nodes = true :=
  Bool.and_eq_true_iff.mp h

/-- Node keys are names, arguments are absent or an object that passes, and a block has children. -/
def isPrintable (p : List (String × Json) → Bool) (node : Node) : Bool :=
  Text.isName node.key &&
    (match node.arguments with
      | none => true
      | some (.object fields) => p fields
      | some _ => false) &&
    (match node.children? with
      | some [] => false
      | _ => true)

theorem isPrintable_eq_true {p : List (String × Json) → Bool} {node : Node}
    (h : node.isPrintable p = true) :
    Text.isNameList node.key.toList = true ∧
      (node.arguments = none ∨ ∃ fields, node.arguments = some (.object fields) ∧ p fields = true) ∧
      node.children? ≠ some [] := by
  simp only [isPrintable, Bool.and_eq_true] at h
  obtain ⟨⟨hkey, harguments⟩, hchildren⟩ := h
  refine ⟨hkey, ?_, ?_⟩
  · split at harguments
    · rename_i hnone
      exact Or.inl hnone
    · rename_i fields hfields
      exact Or.inr ⟨fields, hfields, harguments⟩
    · cases harguments
  · intro hnil
    rw [hnil] at hchildren
    cases hchildren

end Node

end GraphQLClient
