import GraphQLClient.Proofs.DefaultSelections
import Mathlib.Logic.Relation

/-!
# The selection of all fields is exact

The object types of a schema are the vertices of a graph with an edge for every field that refers to
an object type. The selection of all fields exists exactly when no vertex that can be got to has a
field with a required argument or lies on a cycle, and then it is the whole unfolding of the graph.
The error of a cycle tells a way that comes back to a type which it has passed.
-/
namespace GraphQLClient

open Outcome

def FieldDefinition.HasRequiredArgument (field : FieldDefinition) : Prop :=
  ∃ input, field.input = some input ∧ ∃ argument ∈ InputDefinition.fields input,
    argument.isOptional = false

theorem FieldDefinition.requiresArguments_iff (field : FieldDefinition) :
    field.requiresArguments = true ↔ field.HasRequiredArgument := by
  unfold requiresArguments HasRequiredArgument
  cases field.input with
  | none => simp
  | some input => simp [InputDefinition.requiredNames]

theorem FieldDefinition.not_hasRequiredArgument {field : FieldDefinition}
    (h : field.requiresArguments = false) : ¬ field.HasRequiredArgument := by
  rw [← requiresArguments_iff, h]
  nofun

def ObjectDefinition.NeedsNoArguments (object : ObjectDefinition) : Prop :=
  ∀ entry ∈ object.entries, ¬ entry.2.HasRequiredArgument

namespace TypeTable

variable {types : TypeTable} {root parent child name expr : String} {object : ObjectDefinition}

/-- A field of the object type `parent` refers to the object type `child`. -/
def FieldTo (types : TypeTable) (parent child : String) : Prop :=
  ∃ object declared field, types.object? parent = some object ∧ (declared, field) ∈ object.entries ∧
    types.RefersTo field.output child

theorem reaches_iff : types.Reaches expr name ↔
    ∃ first, types.RefersTo expr first ∧ Relation.ReflTransGen types.FieldTo first name := by
  constructor
  · intro h
    induction h with
    | here h => exact ⟨_, h, .refl⟩
    | inside h hobject hfield _ ih =>
      obtain ⟨first, hfirst, hrest⟩ := ih
      exact ⟨_, h, .head ⟨_, _, _, hobject, hfield, hfirst⟩ hrest⟩
  · rintro ⟨first, hfirst, hrest⟩
    induction hrest using Relation.ReflTransGen.head_induction_on generalizing expr with
    | refl => exact .here hfirst
    | head hstep _ ih =>
      obtain ⟨object, declared, field, hobject, hfield, hnext⟩ := hstep
      exact .inside hfirst hobject hfield (ih hnext)

/-- No object type that can be got to asks for arguments or leads back to itself. -/
def Unfoldable (types : TypeTable) (expr : String) : Prop :=
  ∀ name, types.Reaches expr name →
    (∀ object, types.object? name = some object → object.NeedsNoArguments) ∧
      ¬ Relation.TransGen types.FieldTo name name

theorem unfoldable_of_fields (hrefers : types.RefersTo expr name)
    (hobject : types.object? name = some object) (hneeds : object.NeedsNoArguments)
    (hinner : ∀ entry ∈ object.entries, types.Unfoldable entry.2.output)
    (hback : ∀ entry ∈ object.entries, ¬ types.Reaches entry.2.output name) :
    types.Unfoldable expr := by
  intro other hother
  rcases (reaches_object_iff hrefers hobject).mp hother with rfl | ⟨entry, hentry, hreaches⟩
  · constructor
    · intro found hfound
      cases hobject.symm.trans hfound
      exact hneeds
    · intro hcycle
      obtain ⟨first, ⟨found, declared, field, hfound, hfield, hfirst⟩, hrest⟩ :=
        Relation.TransGen.head'_iff.mp hcycle
      cases hobject.symm.trans hfound
      exact hback (declared, field) hfield (reaches_iff.mpr ⟨first, hfirst, hrest⟩)
  · exact hinner entry hentry other hreaches

inductive Unfolds (types : TypeTable) : List (String × FieldDefinition) → List Node → Prop where
  | nil : Unfolds types [] []
  | leaf {declared : String} {field : FieldDefinition} {fields : List (String × FieldDefinition)}
      {nodes : List Node} (hterminal : ∀ name, ¬ types.RefersTo field.output name)
      (hrest : Unfolds types fields nodes) :
      Unfolds types ((declared, field) :: fields) (.leaf (Text.baseName declared) none :: nodes)
  | block {declared child : String} {field : FieldDefinition} {object : ObjectDefinition}
      {fields : List (String × FieldDefinition)} {children nodes : List Node}
      (hchild : types.RefersTo field.output child) (hobject : types.object? child = some object)
      (hchildren : Unfolds types object.entries children) (hrest : Unfolds types fields nodes) :
      Unfolds types ((declared, field) :: fields)
        (.block (Text.baseName declared) none children :: nodes)

inductive Way (types : TypeTable) (root : String) : List String → List String → String → Prop where
  | start : Way types root [] [] root
  | step {fields passed : List String} {parent child declared : String} {object : ObjectDefinition}
      {field : FieldDefinition} (hway : Way types root fields passed parent)
      (hobject : types.object? parent = some object) (hfield : (declared, field) ∈ object.entries)
      (hchild : types.RefersTo field.output child) :
      Way types root (fields ++ [Text.baseName declared]) (passed ++ [parent]) child

namespace Way

variable {fields passed : List String}

theorem reaches (h : types.Way root fields passed name) :
    Relation.ReflTransGen types.FieldTo root name := by
  induction h with
  | start => exact .refl
  | step _ hobject hfield hchild ih => exact .tail ih ⟨_, _, _, hobject, hfield, hchild⟩

theorem reaches_of_mem (h : types.Way root fields passed name) {earlier : String}
    (hmem : earlier ∈ passed) : Relation.TransGen types.FieldTo earlier name := by
  induction h with
  | start => cases hmem
  | step hway hobject hfield hchild ih =>
    have hstep : types.FieldTo _ _ := ⟨_, _, _, hobject, hfield, hchild⟩
    rcases List.mem_append.mp hmem with hmem | hmem
    · exact .tail (ih hmem) hstep
    · rw [List.mem_singleton.mp hmem]
      exact .single hstep

end Way

/-- Why the fields of `root` cannot all be selected: a way leads to a field that needs an argument,
or back to a type that it has passed. -/
inductive Blocks (types : TypeTable) (root : String) : SchemaError → Prop where
  | requires {fields passed : List String} {typeName declared : String} {object : ObjectDefinition}
      {field : FieldDefinition} (hway : types.Way root fields passed typeName)
      (hobject : types.object? typeName = some object) (hfield : (declared, field) ∈ object.entries)
      (hrequired : field.HasRequiredArgument) :
      Blocks types root (.autoSelectRequiresArguments typeName (Text.baseName declared))
  | cycle {fields passed : List String} {typeName : String}
      (hway : types.Way root fields passed typeName)
      (hpassed : typeName ∈ passed) : Blocks types root (.autoSelectCycle typeName root fields)

section Walk

variable {free path passed : List String} {typeName : String}
  {fields : List (String × FieldDefinition)}
  {nodes : List Node} {error : SchemaError}

theorem Walks.unfolds (h : types.Walks free typeName fields nodes) :
    types.Unfolds fields nodes := by
  induction h with
  | done => exact .nil
  | leaf _ hr hnone _ ih => exact .leaf (not_refersTo hr hnone) ih
  | block _ hr hchild _ hobject _ _ ihchildren ih =>
    exact .block ((refersTo_iff hr).mpr hchild) hobject ihchildren ih

/-- A walk that succeeds meets no obstacle and stays among the free types. A type is not free inside
itself, so nothing leads back to it. -/
theorem Walks.stays_free (h : types.Walks free typeName fields nodes) (hnodup : free.Nodup) :
    ∀ entry ∈ fields, ¬ entry.2.HasRequiredArgument ∧ types.Unfoldable entry.2.output ∧
      ∀ name, types.Reaches entry.2.output name → name ∈ free := by
  induction h with
  | done =>
    intro entry hentry
    cases hentry
  | leaf harguments hr hnone _ ih =>
    have hnothing := not_reaches hr hnone
    refine List.forall_mem_cons.mpr ⟨⟨?_, ?_, ?_⟩, ih hnodup⟩
    · exact FieldDefinition.not_hasRequiredArgument harguments
    · exact fun name hname => absurd hname (hnothing name)
    · exact fun name hname => absurd hname (hnothing name)
  | block harguments hr hchild hfree hobject _ _ ihchildren ih =>
    have hrefers := (refersTo_iff hr).mpr hchild
    have hinner := ihchildren (hnodup.erase _)
    refine List.forall_mem_cons.mpr ⟨⟨?_, ?_, ?_⟩, ih hnodup⟩
    · exact FieldDefinition.not_hasRequiredArgument harguments
    · refine unfoldable_of_fields hrefers hobject (fun entry hentry => (hinner entry hentry).1)
        (fun entry hentry => (hinner entry hentry).2.1) fun entry hentry hback => ?_
      exact hnodup.not_mem_erase ((hinner entry hentry).2.2 _ hback)
    · intro name hname
      rcases (reaches_object_iff hrefers hobject).mp hname with rfl | ⟨entry, hentry, hreaches⟩
      · exact hfree
      · exact List.mem_of_mem_erase ((hinner entry hentry).2.2 name hreaches)

/-- Whatever stops a walk is found on a way from its root. The types that are not free are those on
the way to the current one. -/
theorem blocks_of_unfoldFields (hs : types.Sound) (hway : types.Way root path passed typeName)
    (hobject : types.object? typeName = some object)
    (hfields : ∀ entry ∈ fields, entry ∈ object.entries)
    (hfree : ∀ name ∈ types.objectNames, name ∉ free → name ∈ passed ++ [typeName])
    (h : types.unfoldFields root free typeName path fields = .error error) :
    types.Blocks root error := by
  induction free, typeName, path, fields using unfoldFields.induct types root
    generalizing passed object with
  | case1 => simp only [unfoldFields, reduceCtorEq] at h
  | case2 free typeName path declared field rest name hrequires =>
    simp only [unfoldFields, hrequires, if_true] at h
    cases h
    exact .requires hway hobject (hfields _ List.mem_cons_self)
      ((FieldDefinition.requiresArguments_iff field).mp hrequires)
  | case3 free typeName path declared field fields name hrequires ihrest =>
    rename_i ihchild
    have hentry : (declared, field) ∈ object.entries := hfields _ List.mem_cons_self
    rcases unfoldFields_cons_error (hs.output_resolves hobject hentry) h with
      ⟨hyes, -⟩ | hrest | ⟨r, child, inner, hr, hchild, hinner,
        ⟨hpassed, rfl⟩ | ⟨hchildFree, herror⟩⟩
    · exact absurd hyes hrequires
    · exact ihrest hway hobject (fun entry hmem =>
        hfields entry (List.mem_cons_of_mem _ hmem)) hfree hrest
    · have hstep := hway.step hobject hentry ((refersTo_iff hr).mpr hchild)
      exact .cycle hstep (hfree child (mem_objectNames hinner) hpassed)
    · have hstep := hway.step hobject hentry ((refersTo_iff hr).mpr hchild)
      refine ihchild child hchildFree inner hstep hinner (fun _ hmem => hmem) ?_ herror
      intro name hname herased
      by_cases hself : name = child
      · rw [hself]
        exact List.mem_append_right _ List.mem_cons_self
      · have hnot : name ∉ free := fun hmem => herased ((List.mem_erase_of_ne hself).mpr hmem)
        exact List.mem_append_left _ (hfree name hname hnot)

section Stopped

variable {declared : String} {field : FieldDefinition}
  (harguments : field.requiresArguments = false)
  (hchild : (types.resolve field.output (SchemaCheck.fieldLocation typeName
    (Text.baseName declared))).map Resolved.object? = .ok (some child))

include harguments hchild

theorem unfoldFields_passed (hpassed : child ∉ free) :
    types.unfoldFields root free typeName path ((declared, field) :: fields) =
      .error (.autoSelectCycle child root (path ++ [Text.baseName declared])) := by
  obtain ⟨r, hr, hresolved⟩ := map_eq_ok.mp hchild
  simp only [unfoldFields, harguments, Bool.false_eq_true, if_false, hr, bind,
    Except.bind, hresolved, dif_neg hpassed]
  rfl

theorem unfoldFields_inside (hfree : child ∈ free) (hobject : types.object? child = some object)
    (hinner : types.unfoldFields root (free.erase child) child (path ++ [Text.baseName declared])
      object.entries = .error error) :
    types.unfoldFields root free typeName path ((declared, field) :: fields) = .error error := by
  obtain ⟨r, hr, hresolved⟩ := map_eq_ok.mp hchild
  simp only [unfoldFields, harguments, Bool.false_eq_true, if_false, hr, bind,
    Except.bind, hresolved, dif_pos hfree, hobject, hinner]

end Stopped

end Walk

theorem allFields_refersTo (h : types.RefersTo expr root) :
    ∃ object, types.object? root = some object ∧
    types.allFields expr =
      types.unfoldFields root (types.objectNames.erase root) root [] object.entries := by
  obtain ⟨r, hr, hroot⟩ := h
  obtain ⟨object, hobject⟩ := object?_of_resolve hr hroot
  exact ⟨object, hobject, allFields_object (map_eq_ok.mpr ⟨r, hr, hroot⟩) hobject⟩

theorem nodup_objectNames (types : TypeTable) : types.objectNames.Nodup := types.nodup_keys.filter _

theorem unfoldable_of_allFields (hroot : types.RefersTo expr root) {nodes : List Node}
    (h : types.allFields expr = .ok nodes) : types.Unfoldable expr := by
  obtain ⟨object, hobject, heq⟩ := allFields_refersTo hroot
  have hnodup := types.nodup_objectNames
  have hfields := (walks_of_unfoldFields (heq.symm.trans h)).stays_free (hnodup.erase root)
  refine unfoldable_of_fields hroot hobject (fun entry hentry => (hfields entry hentry).1)
    (fun entry hentry => (hfields entry hentry).2.1) fun entry hentry hback => ?_
  exact hnodup.not_mem_erase ((hfields entry hentry).2.2 root hback)

theorem blocks_of_allFields (hs : types.Sound) (hroot : types.RefersTo expr root)
    {error : SchemaError} (h : types.allFields expr = .error error) : types.Blocks root error := by
  obtain ⟨object, hobject, heq⟩ := allFields_refersTo hroot
  refine blocks_of_unfoldFields hs .start hobject (fun _ hmem => hmem) ?_ (heq.symm.trans h)
  intro name hname herased
  by_cases hself : name = root
  · rw [hself]
    exact List.mem_cons_self
  · exact absurd ((List.mem_erase_of_ne hself).mpr hname) herased

theorem Blocks.not_unfoldable {error : SchemaError} (h : types.Blocks root error)
    (hroot : types.RefersTo expr root) : ¬ types.Unfoldable expr := by
  intro hall
  cases h with
  | requires hway hobject hfield hrequired =>
    have hreaches := reaches_iff.mpr ⟨root, hroot, hway.reaches⟩
    exact (hall _ hreaches).1 _ hobject _ hfield hrequired
  | cycle hway hpassed =>
    have hreaches := reaches_iff.mpr ⟨root, hroot, hway.reaches⟩
    exact (hall _ hreaches).2 (hway.reaches_of_mem hpassed)

end TypeTable

/-- All fields of an object type can be selected exactly when nothing that can be got to from it
asks for an argument or leads back to itself, and the selection is then the whole unfolding. The
fields that the error of a cycle names lead from the type to one that stands on the way already. -/
theorem all_fields_exact {draft : SchemaDraft} {schema : Schema} (hok : draft.build = .ok schema)
    {expr root : String} (hroot : schema.types.RefersTo expr root) :
    ((∃ nodes, schema.types.allFields expr = .ok nodes) ↔ schema.types.Unfoldable expr) ∧
    (∀ nodes, schema.types.allFields expr = .ok nodes →
      ∃ object, schema.types.object? root = some object ∧
      schema.types.Unfolds object.entries nodes) ∧
    ∀ typeName start fields, schema.types.allFields expr =
      .error (.autoSelectCycle typeName start fields) →
      start = root ∧ ∃ passed, schema.types.Way root fields passed typeName ∧
      typeName ∈ passed := by
  have hs := Schema.sound_types hok
  refine ⟨?_, ?_, ?_⟩
  · constructor
    · rintro ⟨nodes, hnodes⟩
      exact TypeTable.unfoldable_of_allFields hroot hnodes
    · intro hall
      cases hresult : schema.types.allFields expr with
      | ok nodes => exact ⟨nodes, rfl⟩
      | error error =>
        exact absurd hall ((TypeTable.blocks_of_allFields hs hroot hresult).not_unfoldable hroot)
  · intro nodes hnodes
    obtain ⟨object, hobject, heq⟩ := TypeTable.allFields_refersTo hroot
    exact ⟨object, hobject, (TypeTable.walks_of_unfoldFields (heq.symm.trans hnodes)).unfolds⟩
  · intro typeName start fields herror
    cases TypeTable.blocks_of_allFields hs hroot herror with
    | cycle hway hpassed => exact ⟨rfl, _, hway, hpassed⟩

def forumDraft : SchemaDraft :=
  SchemaDraft.empty.addAll [
    .ok (.type "Tag"
      (.object (.ofList [("label?", ⟨some (.ofList [("locale?", "String")]), "String"⟩)]))),
    .ok (.type "Tags" (.scalar "[Tag!]" none)),
    .ok (.type "Writer" (.scalar "User!" none)),
    .ok (.type "Post" (.object (.ofList [("author?", ⟨none, "Writer"⟩),
      ("tags", ⟨none, "Tags"⟩)]))),
    .ok (.type "User" (.object (.ofList [("posts", ⟨none, "[Post!]!"⟩)]))),
    .ok (.operation .query "me" ⟨none, "User"⟩)]

theorem forum_tags : forumDraft.types.allFields "Tags!" = .ok [.leaf "label" none] := by
  have htag : forumDraft.types.object? "Tag" =
    some (.ofList [("label?", ⟨some (.ofList [("locale?", "String")]), "String"⟩)]) := rfl
  rw [TypeTable.allFields_object (by decide +kernel) htag]
  exact TypeTable.unfoldFields_leaf rfl (by decide +kernel) (by rw [TypeTable.unfoldFields])

theorem forum_users : forumDraft.types.allFields "[User!]" =
    .error (.autoSelectCycle "User" "User" ["posts", "author"]) := by
  have huser : forumDraft.types.object? "User" = some (.ofList [("posts", ⟨none, "[Post!]!"⟩)]) :=
    rfl
  have hpost : forumDraft.types.object? "Post" =
    some (.ofList [("author?", ⟨none, "Writer"⟩), ("tags", ⟨none, "Tags"⟩)]) := rfl
  rw [TypeTable.allFields_object (by decide +kernel) huser]
  refine TypeTable.unfoldFields_inside rfl (by decide +kernel) (by decide +kernel) hpost ?_
  exact TypeTable.unfoldFields_passed rfl (by decide +kernel) (by decide +kernel)

theorem forum_exact :
    ∃ schema, forumDraft.build = .ok schema ∧ schema.types.RefersTo "Tags!" "Tag" ∧
      schema.types.RefersTo "[User!]" "User" ∧ schema.types.Unfoldable "Tags!" ∧
      (∃ object, schema.types.object? "Tag" = some object ∧
        schema.types.Unfolds object.entries [.leaf "label" none]) ∧
      ¬ schema.types.Unfoldable "[User!]" ∧
      ∃ passed, schema.types.Way "User" ["posts", "author"] passed "User" ∧ "User" ∈ passed := by
  have hnone : forumDraft.problems = [] := by decide +kernel
  rcases forumDraft.build_cases with ⟨hsome, -⟩ | ⟨-, operations, -, hok⟩
  · exact absurd hnone hsome
  have htags : forumDraft.types.RefersTo "Tags!" "Tag" := map_eq_ok.mp (by decide +kernel)
  have husers : forumDraft.types.RefersTo "[User!]" "User" := map_eq_ok.mp (by decide +kernel)
  obtain ⟨hiff, hunfolds, -⟩ := all_fields_exact hok htags
  obtain ⟨hiff', -, hcycle⟩ := all_fields_exact hok husers
  refine ⟨_, hok, htags, husers, hiff.mp ⟨_, forum_tags⟩, hunfolds _ forum_tags, ?_, ?_⟩
  · rw [← hiff']
    rintro ⟨nodes, hnodes⟩
    cases forum_users.symm.trans hnodes
  · exact (hcycle _ _ _ forum_users).2

end GraphQLClient
