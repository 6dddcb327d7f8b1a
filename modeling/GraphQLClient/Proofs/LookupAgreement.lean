import GraphQLClient.Proofs.OrderedMaps
import GraphQLClient.Schema.Basic
import GraphQLClient.Selection.Basic
import Mathlib.Data.List.Perm.Basic

/-!
# Tables that agree

All that is asked of a table of types is looked up by name. Tables that give the same type for every
name give the same answers, whatever the order of their types.
-/
namespace GraphQLClient

namespace TypeTable

def Agrees (a b : TypeTable) : Prop := ∀ name, a.get? name = b.get? name

namespace Agrees

variable {a b : TypeTable}

theorem follow (h : a.Agrees b) (declared : TypeRef) (expr location : String) (steps : Nat)
    (trail : Trail) :
    a.follow declared expr location steps trail = b.follow declared expr location steps trail := by
  induction steps generalizing trail with
  | zero => rfl
  | succ steps ih => simp only [TypeTable.follow, h trail.current.core, ih]

theorem resolve (h : a.Agrees b) (expr location : String) :
    a.resolve expr location = b.resolve expr location := by
  simp only [TypeTable.resolve, h.follow]

theorem object? (h : a.Agrees b) (name : String) : a.object? name = b.object? name := by
  simp only [TypeTable.object?, h name]

theorem codec? (h : a.Agrees b) (r : Resolved) : a.codec? r = b.codec? r := by
  have hscalar : a.scalarCodec? = b.scalarCodec? := by
    funext name
    simp only [TypeTable.scalarCodec?, h name]
  simp only [TypeTable.codec?, hscalar]

/-! Selections. -/

theorem objectNames_perm (h : a.Agrees b) : a.objectNames.Perm b.objectNames := by
  have hobject : (fun name => (a.object? name).isSome) = fun name => (b.object? name).isSome := by
    funext name
    rw [h.object?]
  rw [objectNames, objectNames, hobject]
  exact ((OrderedMap.perm_iff.mpr h).map Prod.fst).filter _

/-- The types that are not on the way yet count as a set. -/
theorem unfoldFields (h : a.Agrees b) (root : String) {free free' : List String}
    (hfree : free.Perm free') (typeName : String) (path : List String)
    (fields : List (String × FieldDefinition)) :
    a.unfoldFields root free typeName path fields =
      b.unfoldFields root free' typeName path fields := by
  induction free, typeName, path, fields using TypeTable.unfoldFields.induct a root
    generalizing free' with
  | case1 => simp only [TypeTable.unfoldFields]
  | case2 free typeName path declared field rest name hreq =>
    simp only [TypeTable.unfoldFields, hreq, if_true]
    rfl
  | case3 free typeName path declared field rest name hreq ihrest =>
    rename_i ihchild
    simp only [TypeTable.unfoldFields, hreq, h.resolve, Bool.false_eq_true, if_false]
    refine bind_congr fun r => ?_
    cases r.object? with
    | none => simp only [ihrest hfree]
    | some child =>
      by_cases hchild : child ∈ free
      · have hchild' : child ∈ free' := hfree.mem_iff.mp hchild
        simp only [hchild, hchild', h.object?, dif_pos]
        cases b.object? child with
        | none => rfl
        | some object =>
          have hchildren := ihchild child hchild object (hfree.erase child)
          simp only [name] at hchildren
          simp only [hchildren, ihrest hfree]
      · have hchild' : child ∉ free' := fun hmem => hchild (hfree.mem_iff.mpr hmem)
        simp only [hchild, hchild', dif_neg, not_false_eq_true]

theorem allFields (h : a.Agrees b) (expr : String) : a.allFields expr = b.allFields expr := by
  simp only [TypeTable.allFields, h.resolve, h.object?,
    h.unfoldFields _ (h.objectNames_perm.erase _)]

theorem fieldOf (h : a.Agrees b) (typeName key : String) :
    SelectionCheck.fieldOf a typeName key = SelectionCheck.fieldOf b typeName key := by
  simp only [SelectionCheck.fieldOf, h.object?]

theorem selectedObject (h : a.Agrees b) (parent field expr : String) (given : Bool) :
    SelectionCheck.selectedObject a parent field expr given =
      SelectionCheck.selectedObject b parent field expr given := by
  simp only [SelectionCheck.selectedObject, h.resolve]

mutual

theorem checkNode (h : a.Agrees b) (typeName : String) (node : Node) :
    SelectionCheck.checkNode a typeName node = SelectionCheck.checkNode b typeName node := by
  cases node with
  | leaf key arguments => simp only [SelectionCheck.checkNode, h.fieldOf, h.selectedObject]
  | block key arguments children =>
    have hchildren := fun object => h.checkNodes object children
    simp only [SelectionCheck.checkNode, h.fieldOf, h.selectedObject, hchildren]

theorem checkNodes (h : a.Agrees b) (typeName : String) (nodes : List Node) :
    SelectionCheck.checkNodes a typeName nodes = SelectionCheck.checkNodes b typeName nodes := by
  cases nodes with
  | nil => rfl
  | cons node rest =>
    simp only [SelectionCheck.checkNodes, h.checkNode typeName node, h.checkNodes typeName rest]

end

theorem checkSelection (h : a.Agrees b) (parent field expr : String) (nodes : List Node) :
    a.checkSelection parent field expr nodes = b.checkSelection parent field expr nodes := by
  simp only [TypeTable.checkSelection, h.selectedObject, h.checkNodes]

/-! Declarations. -/

theorem compile (h : a.Agrees b) (kind : OperationKind) (name : String)
    (signature : OperationSignature) :
    Operation.compile a kind name signature = Operation.compile b kind name signature := by
  simp only [Operation.compile, h.resolve]

theorem exprErrors (h : a.Agrees b) (expr location : String) (voidAllowed : Bool) :
    SchemaCheck.exprErrors a expr location voidAllowed =
      SchemaCheck.exprErrors b expr location voidAllowed := by
  simp only [SchemaCheck.exprErrors, h.resolve]

theorem inputErrors (h : a.Agrees b) (location : String) (input : InputDefinition) :
    SchemaCheck.inputErrors a location input = SchemaCheck.inputErrors b location input := by
  simp only [SchemaCheck.inputErrors, h.exprErrors]

theorem typeErrors (h : a.Agrees b) (name : String) (definition : TypeDefinition) :
    SchemaCheck.typeErrors a name definition = SchemaCheck.typeErrors b name definition := by
  cases definition <;>
    simp only [SchemaCheck.typeErrors, SchemaCheck.definitionErrors, SchemaCheck.fieldErrors,
      h.exprErrors, h.inputErrors]

theorem operationErrors (h : a.Agrees b) (kind : OperationKind) (name : String)
    (signature : OperationSignature) :
    SchemaCheck.operationErrors a kind name signature =
      SchemaCheck.operationErrors b kind name signature := by
  simp only [SchemaCheck.operationErrors, h.exprErrors, h.inputErrors]

end Agrees

end TypeTable

end GraphQLClient
