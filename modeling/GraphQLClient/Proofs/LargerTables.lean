import GraphQLClient.Proofs.ErrorPlaces
import GraphQLClient.Proofs.RegistrationSoundness

/-!
# Larger tables of types

Whoever starts at an expression that resolves in a sound table gets to declared types only. A table
that declares further types gives the same answers there.
-/
namespace GraphQLClient

open Outcome

namespace TypeTable

/-- What is declared in `small` is declared so in `large`. -/
def Within (small large : TypeTable) : Prop :=
  ∀ name definition, small.get? name = some definition → large.get? name = some definition

namespace Within

variable {small large : TypeTable}

theorem aliasChain (h : small.Within large) {core : String}
    {links : List AliasLink} {target : Target} (hchain : AliasChain small core links target) :
    AliasChain large core links target := by
  induction hchain with
  | builtin hs => exact .builtin hs
  | object hb hget => exact .object hb (h _ _ hget)
  | enumeration hb hget => exact .enumeration hb (h _ _ hget)
  | scalar hb hget hparse _ ih => exact .scalar hb (h _ _ hget) hparse ih

theorem resolve_ok (h : small.Within large) {expr location : String} {r : Resolved}
    (hr : small.resolve expr location = .ok r) : large.resolve expr location = .ok r := by
  obtain ⟨declared, hparse, hvoid | ⟨hne, links, target, last, hchain, hlen, hlast, rfl⟩⟩ :=
    resolve_eq_ok_iff.mp hr
  · exact resolve_eq_ok_iff.mpr ⟨declared, hparse, Or.inl hvoid⟩
  · exact resolve_eq_ok_iff.mpr
      ⟨declared, hparse, Or.inr ⟨hne, links, target, last, h.aliasChain hchain, hlen, hlast, rfl⟩⟩

theorem resolve (h : small.Within large) {expr : String} (hr : small.Resolves expr)
    (location : String) : large.resolve expr location = small.resolve expr location := by
  obtain ⟨r, hr⟩ := hr
  rw [hr location, h.resolve_ok (hr location)]

theorem object? (h : small.Within large) {name : String} {fields : ObjectDefinition}
    (ho : small.object? name = some fields) : large.object? name = some fields :=
  object?_of_get? (h _ _ (get?_of_object? ho))

/-! Selections. -/

/-- The types that are not on the way yet are the same among those that `small` declares. -/
theorem unfoldFields (h : small.Within large) (hs : small.Sound) {root : String}
    {free free' : List String} {typeName : String} {path : List String}
    {fields : List (String × FieldDefinition)} (hfree : free.Nodup) (hfree' : free'.Nodup)
    (hsame : ∀ name object, small.object? name = some object → (name ∈ free ↔ name ∈ free'))
    (hfields : ∀ entry ∈ fields, small.Resolves entry.2.output) :
    large.unfoldFields root free' typeName path fields =
      small.unfoldFields root free typeName path fields := by
  induction free, typeName, path, fields using TypeTable.unfoldFields.induct small root
    generalizing free' with
  | case1 => simp only [TypeTable.unfoldFields]
  | case2 free typeName path declared field rest name hreq =>
    simp only [TypeTable.unfoldFields, hreq, if_true]
    rfl
  | case3 free typeName path declared field rest name hreq ihrest =>
    rename_i ihchild
    have hrest := ihrest hfree hfree' hsame fun entry hentry =>
      hfields entry (List.mem_cons_of_mem _ hentry)
    have hresolve := h.resolve (hfields _ List.mem_cons_self)
    simp only [TypeTable.unfoldFields, hreq, hresolve, hrest, Bool.false_eq_true, if_false]
    apply bind_congr_ok
    intro r hr
    cases ho : r.object? with
    | none => rfl
    | some child =>
      obtain ⟨object, hobject⟩ := object?_of_resolve hr ho
      have hobject' := h.object? hobject
      by_cases hchild : child ∈ free
      · have hchild' : child ∈ free' := (hsame child object hobject).mp hchild
        have hchildren := ihchild child hchild object (hfree.erase child) (hfree'.erase child)
          (fun name other hother => by
            rw [hfree.mem_erase_iff, hfree'.mem_erase_iff, hsame name other hother])
          (fun entry hentry => hs.output_resolves hobject hentry)
        simp only [name] at hchildren
        simp only [hchild, hchild', dif_pos, hobject, hobject', hchildren]
      · have hchild' : child ∉ free' := fun hmem => hchild ((hsame child object hobject).mpr hmem)
        simp only [hchild, hchild', dif_neg, not_false_eq_true]

theorem allFields (h : small.Within large) (hs : small.Sound) {expr : String}
    (hr : small.Resolves expr) : large.allFields expr = small.allFields expr := by
  have hnodup : ∀ types : TypeTable, types.objectNames.Nodup :=
    fun types => types.nodup_keys.filter _
  simp only [TypeTable.allFields, h.resolve hr]
  apply bind_congr_ok
  intro r hr
  cases ho : r.object? with
  | none => rfl
  | some root =>
    obtain ⟨object, hobject⟩ := object?_of_resolve hr ho
    simp only [hobject, h.object? hobject]
    apply h.unfoldFields hs ((hnodup small).erase root) ((hnodup large).erase root)
    · intro name other hother
      have hsmall := mem_objectNames hother
      have hlarge := mem_objectNames (h.object? hother)
      rw [(hnodup small).mem_erase_iff, (hnodup large).mem_erase_iff, iff_true_intro hsmall,
        iff_true_intro hlarge]
    · intro entry hentry
      exact hs.output_resolves hobject hentry

theorem fieldOf (h : small.Within large) {typeName : String} {fields : ObjectDefinition}
    (ho : small.object? typeName = some fields) (key : String) :
    SelectionCheck.fieldOf large typeName key = SelectionCheck.fieldOf small typeName key := by
  simp only [SelectionCheck.fieldOf, ho, h.object? ho]

theorem selectedObject (h : small.Within large) {expr : String} (hr : small.Resolves expr)
    (parent field : String) (given : Bool) :
    SelectionCheck.selectedObject large parent field expr given =
      SelectionCheck.selectedObject small parent field expr given := by
  simp only [SelectionCheck.selectedObject, h.resolve hr]

mutual

theorem checkNode (h : small.Within large) (hs : small.Sound) {typeName : String}
    {fields : ObjectDefinition} (ho : small.object? typeName = some fields) (node : Node) :
    SelectionCheck.checkNode large typeName node =
      SelectionCheck.checkNode small typeName node := by
  cases node with
  | leaf key arguments =>
    simp only [SelectionCheck.checkNode, h.fieldOf ho]
    apply bind_congr_ok
    intro field hfield
    simp only [h.selectedObject (SelectionCheck.fieldOf_resolves hs hfield)]
  | block key arguments children =>
    simp only [SelectionCheck.checkNode, h.fieldOf ho]
    apply bind_congr_ok
    intro field hfield
    simp only [h.selectedObject (SelectionCheck.fieldOf_resolves hs hfield)]
    refine bind_congr fun _ => bind_congr_ok ?_
    intro selected hselected
    cases selected with
    | none => rfl
    | some object =>
      obtain ⟨inner, hinner⟩ := SelectionCheck.selectedObject_ok hselected
      exact h.checkNodes hs hinner children

theorem checkNodes (h : small.Within large) (hs : small.Sound) {typeName : String}
    {fields : ObjectDefinition} (ho : small.object? typeName = some fields) (nodes : List Node) :
    SelectionCheck.checkNodes large typeName nodes =
      SelectionCheck.checkNodes small typeName nodes := by
  cases nodes with
  | nil => rfl
  | cons node rest =>
    simp only [SelectionCheck.checkNodes, h.checkNode hs ho node, h.checkNodes hs ho rest]

end

theorem checkSelection (h : small.Within large) (hs : small.Sound) {expr : String}
    (hr : small.Resolves expr) (parent field : String) (nodes : List Node) :
    large.checkSelection parent field expr nodes =
      small.checkSelection parent field expr nodes := by
  simp only [TypeTable.checkSelection, h.selectedObject hr]
  apply bind_congr_ok
  intro selected hselected
  cases selected with
  | none => rfl
  | some object =>
    obtain ⟨fields, hfields⟩ := SelectionCheck.selectedObject_ok hselected
    exact h.checkNodes hs hfields nodes

/-! Values. -/

/-- The codecs that a chain passes. -/
theorem findSome?_scalarCodec? (h : small.Within large) {core : String} {links : List AliasLink}
    {target : Target} (hchain : AliasChain small core links target) :
    (links.map AliasLink.scalar).findSome? large.scalarCodec? =
      (links.map AliasLink.scalar).findSome? small.scalarCodec? := by
  induction hchain with
  | scalar _ hget _ _ ih =>
    rw [List.map_cons, List.findSome?_cons, List.findSome?_cons, ih]
    simp only [scalarCodec?, hget, h _ _ hget]
  | _ => rfl

theorem convert (h : small.Within large) {expr location : String} {r : Resolved}
    (hr : small.resolve expr location = .ok r) (direction : Direction) (value : Json) :
    large.convert direction r value = small.convert direction r value := by
  have hcodec : large.codec? r = small.codec? r := by
    obtain ⟨declared, -, ⟨-, rfl⟩ | ⟨-, links, target, last, hchain, -, hlast, rfl⟩⟩ :=
      resolve_eq_ok_iff.mp hr
    · rfl
    · have haliases : last.aliases = links.map AliasLink.scalar :=
        Trail.along?_aliases hchain rfl hlast
      simp only [TypeTable.codec?, Trail.finish, haliases]
      exact h.findSome?_scalarCodec? hchain
  simp only [TypeTable.convert, hcodec]

theorem resolveAlone (h : small.Within large) {expr : String} (hr : small.Resolves expr) :
    large.resolveAlone expr = small.resolveAlone expr := by
  simp only [TypeTable.resolveAlone, h.resolve hr]

mutual

theorem walk (h : small.Within large) (hs : small.Sound) (direction : Direction) {expr : String}
    (hr : small.Resolves expr) (value : Json) :
    large.walk direction expr value = small.walk direction expr value := by
  have hconvert : ∀ r, small.resolveAlone expr = .ok r → ∀ value,
      large.convert direction r value = small.convert direction r value :=
    fun r hlone => h.convert (mapError_eq_ok.mp hlone) direction
  cases value with
  | null => simp only [TypeTable.walk]
  | bool b =>
    simp only [TypeTable.walk, h.resolveAlone hr]
    exact bind_congr_ok fun r hlone => hconvert r hlone _
  | number n =>
    simp only [TypeTable.walk, h.resolveAlone hr]
    exact bind_congr_ok fun r hlone => hconvert r hlone _
  | string s =>
    simp only [TypeTable.walk, h.resolveAlone hr]
    exact bind_congr_ok fun r hlone => hconvert r hlone _
  | array items =>
    simp only [TypeTable.walk, h.resolveAlone hr]
    apply bind_congr_ok
    intro r hlone
    cases helement : r.element with
    | some element =>
      have hresolves := resolves_element hs (mapError_eq_ok.mp hlone) helement
      simp only [h.walkItems hs direction hresolves items]
    | none => exact hconvert r hlone _
  | object fields =>
    simp only [TypeTable.walk, h.resolveAlone hr]
    apply bind_congr_ok
    intro r hlone
    cases htarget : r.target with
    | object name =>
      have ho : r.object? = some name := by rw [Resolved.object?, htarget]
      obtain ⟨object, hobject⟩ := object?_of_resolve (mapError_eq_ok.mp hlone) ho
      simp only [hobject, h.object? hobject, h.walkFields hs direction hobject fields]
    | _ => exact hconvert r hlone _

theorem walkItems (h : small.Within large) (hs : small.Sound)
    (direction : Direction) {expr : String} (hr : small.Resolves expr) (items : List Json) :
    large.walkItems direction expr items = small.walkItems direction expr items := by
  cases items with
  | nil => simp only [TypeTable.walkItems]
  | cons item rest =>
    simp only [TypeTable.walkItems, h.walk hs direction hr item, h.walkItems hs direction hr rest]

theorem walkFields (h : small.Within large) (hs : small.Sound)
    (direction : Direction) {name : String} {object : ObjectDefinition}
    (ho : small.object? name = some object) (fields : List (String × Json)) :
    large.walkFields direction object fields = small.walkFields direction object fields := by
  cases fields with
  | nil => simp only [TypeTable.walkFields]
  | cons entry rest =>
    obtain ⟨key, value⟩ := entry
    have hvalue : large.walkKnown direction
        ((ObjectDefinition.field? object key).map FieldDefinition.output) value =
          small.walkKnown direction
            ((ObjectDefinition.field? object key).map FieldDefinition.output) value := by
      cases hfield : ObjectDefinition.field? object key with
      | none => rfl
      | some field =>
        obtain ⟨declared, hmem, -⟩ := field?_mem hfield
        exact h.walk hs direction (hs.output_resolves ho hmem) value
    simp only [walkFields_cons, hvalue, h.walkFields hs direction ho rest]

end

theorem serializeVariables (h : small.Within large) (hs : small.Sound) {o : Operation}
    (hinput : ∀ expr ∈ o.input.values, small.Resolves expr) (entries : List (String × Json)) :
    large.serializeVariables o entries = small.serializeVariables o entries := by
  induction entries with
  | nil => rfl
  | cons entry rest ih =>
    obtain ⟨name, value⟩ := entry
    have hvalue : large.walkKnown .serialize (o.inputType? name) value =
        small.walkKnown .serialize (o.inputType? name) value := by
      cases hexpr : o.inputType? name with
      | none => rfl
      | some expr => exact h.walk hs .serialize (hinput expr (inputType?_mem hexpr)) value
    simp only [serializeVariables_cons, hvalue, ih]

/-! Declarations. -/

theorem compile (h : small.Within large) (kind : OperationKind) (name : String)
    {signature : OperationSignature} (hr : small.Resolves signature.output) :
    Operation.compile large kind name signature = Operation.compile small kind name signature := by
  simp only [Operation.compile, h.resolve hr]

theorem exprErrors (h : small.Within large) {expr location : String} {voidAllowed : Bool}
    (hnone : SchemaCheck.exprErrors small expr location voidAllowed = []) :
    SchemaCheck.exprErrors large expr location voidAllowed = [] := by
  have hr := SchemaCheck.resolves_of_exprErrors hnone
  rw [← hnone]
  simp only [SchemaCheck.exprErrors, h.resolve hr]

theorem inputErrors (h : small.Within large) {location : String} {input : InputDefinition}
    (hnone : SchemaCheck.inputErrors small location input = []) :
    SchemaCheck.inputErrors large location input = [] := by
  refine List.flatMap_eq_nil_iff.mpr fun field hfield => ?_
  obtain ⟨hname, hexpr⟩ := List.append_eq_nil_iff.mp (List.flatMap_eq_nil_iff.mp hnone field hfield)
  exact List.append_eq_nil_iff.mpr ⟨hname, h.exprErrors hexpr⟩

theorem signatureErrors (h : small.Within large) {location name output : String}
    {input : Option InputDefinition} {voidAllowed : Bool}
    (hnone : SchemaCheck.signatureErrors small location name input output voidAllowed = []) :
    SchemaCheck.signatureErrors large location name input output voidAllowed = [] := by
  obtain ⟨hfront, houtput⟩ := List.append_eq_nil_iff.mp hnone
  obtain ⟨hname, hinput⟩ := List.append_eq_nil_iff.mp hfront
  refine List.append_eq_nil_iff.mpr ⟨List.append_eq_nil_iff.mpr ⟨hname, ?_⟩, h.exprErrors houtput⟩
  cases input with
  | none => rfl
  | some input => exact h.inputErrors hinput

theorem typeErrors (h : small.Within large) {name : String} {definition : TypeDefinition}
    (hnone : SchemaCheck.typeErrors small name definition = []) :
    SchemaCheck.typeErrors large name definition = [] := by
  obtain ⟨hname, hdefinition⟩ := List.append_eq_nil_iff.mp hnone
  refine List.append_eq_nil_iff.mpr ⟨hname, ?_⟩
  cases definition with
  | object fields =>
    apply List.flatMap_eq_nil_iff.mpr
    intro entry hentry
    exact h.signatureErrors (List.flatMap_eq_nil_iff.mp hdefinition entry hentry)
  | scalar aliasExpr codec => exact h.exprErrors hdefinition
  | enumeration values => exact hdefinition

theorem operationErrors (h : small.Within large) {kind : OperationKind} {name : String}
    {signature : OperationSignature}
    (hnone : SchemaCheck.operationErrors small kind name signature = []) :
    SchemaCheck.operationErrors large kind name signature = [] :=
  h.signatureErrors hnone

end Within

end TypeTable

end GraphQLClient
