import GraphQLClient.Proofs.DeclaredNames

/-!
# How operations describe their inputs

An operation keeps the names of its input in two lists and the types of its variables in a map, and
looks fields up by name when values are walked. The views agree, field by field, where no name is
declared twice. A name may be declared twice, with a marker and without: then it stands in both
lists, its variable has the type of the last field of that name, and its values are walked by the
type of the first.
-/
namespace GraphQLClient

open Outcome

namespace InputDefinition

variable {input : InputDefinition} {name : String}

def lastField? (input : InputDefinition) (name : String) : Option InputField :=
  (fields input).reverse.find? (·.name == name)

theorem eq_of_name_eq (hnodup : (names input).Nodup) {field other : InputField}
    (hfield : field ∈ fields input) (hother : other ∈ fields input)
    (hname : field.name = other.name) : field = other :=
  List.inj_on_of_nodup_map hnodup hfield hother hname

theorem lastField?_eq_some {field : InputField} (h : lastField? input name = some field) :
    field ∈ fields input ∧ field.name = name :=
  ⟨List.mem_reverse.mp (List.mem_of_find?_eq_some h), by simpa using List.find?_some h⟩

end InputDefinition

namespace Operation

/-- Looking a name up in the pairs is looking it up in the fields. -/
theorem get?_of_fields {fields : List InputField} {pairs : List (String × String)}
    (h : List.Forall₂ InputField.EntersAs fields pairs) {name : String} {field : InputField}
    (hfind : fields.find? (·.name == name) = some field) :
    ∃ type, Entries.get? name pairs = some type ∧ field.DeclaredAs type := by
  induction h with
  | nil => cases hfind
  | @cons first pair rest others hfirst _ ih =>
    obtain ⟨hname, hdeclared⟩ := hfirst
    obtain ⟨key, type⟩ := pair
    change first.name = key at hname
    by_cases hkey : key = name
    · rw [List.find?_cons_of_pos (by simp [hname, hkey])] at hfind
      cases hfind
      exact ⟨type, by rw [Entries.get?, if_pos hkey], hdeclared⟩
    · rw [List.find?_cons_of_neg (by simp [hname, hkey])] at hfind
      obtain ⟨found, hfound, hdeclared⟩ := ih hfind
      exact ⟨found, by rw [Entries.get?, if_neg hkey, hfound], hdeclared⟩

/-- The input is described field by field: no name stands in the lists twice, the variables are the
names of the lists, and each is declared by the type that its values are walked by, or by the
nullable form of it. -/
structure DescribesInput (o : Operation) : Prop where
  once : (o.required ++ o.optional).Nodup
  keys : ∀ name, name ∈ o.variableTypes.keys ↔ name ∈ o.required ++ o.optional
  required : ∀ name ∈ o.required, ∃ expr, o.inputType? name = some expr ∧
    o.variableTypes.get? name = some expr
  optional : ∀ name ∈ o.optional, ∃ expr t, o.inputType? name = some expr ∧
    TypeExpr.parse expr = .ok t ∧
    o.variableTypes.get? name = some t.toNullable.print

namespace Compiled

variable {o : Operation} {name : String}

theorem names_perm (h : o.Compiled) :
    (o.required ++ o.optional).Perm (InputDefinition.names o.input) := by
  rw [h.required, h.optional]
  exact InputDefinition.required_optional_perm o.input

theorem mem_keys (h : o.Compiled) :
    name ∈ o.variableTypes.keys ↔ name ∈ o.required ++ o.optional := by
  obtain ⟨pairs, hpairs, hheader⟩ := h.header
  rw [h.names_perm.mem_iff, hheader, OrderedMap.mem_keys_ofList, variablePairs_keys hpairs]
  rfl

/-- A variable has the type of the last field of its name. -/
theorem get?_variable (h : o.Compiled) {last : InputField}
    (hlast : InputDefinition.lastField? o.input name = some last) :
    ∃ type, o.variableTypes.get? name = some type ∧ last.DeclaredAs type := by
  obtain ⟨pairs, hpairs, hheader⟩ := h.header
  have hreversed := List.rel_reverse (variablePairs_fields hpairs)
  rw [hheader, OrderedMap.get?_ofList]
  exact get?_of_fields hreversed hlast

theorem exists_fields (h : o.Compiled) (hname : name ∈ o.required ++ o.optional) :
    ∃ first last, InputDefinition.field? o.input name = some first ∧
      InputDefinition.lastField? o.input name = some last := by
  have hnames := h.names_perm.mem_iff.mp hname
  obtain ⟨first, hfirst⟩ :=
    Option.isSome_iff_exists.mp (InputDefinition.field?_isSome_iff.mpr hnames)
  have hlast : (InputDefinition.lastField? o.input name).isSome = true := by
    obtain ⟨field, hfield, hfound⟩ := InputDefinition.mem_names.mp hnames
    exact List.find?_isSome.mpr ⟨field, List.mem_reverse.mpr hfield, beq_iff_eq.mpr hfound⟩
  obtain ⟨last, hlast⟩ := Option.isSome_iff_exists.mp hlast
  exact ⟨first, last, hfirst, hlast⟩

/-- Where names are distinct, the first and the last field of a name are the field itself. -/
theorem described (h : o.Compiled) (hnodup : (InputDefinition.names o.input).Nodup)
    {field : InputField} (hfield : field ∈ InputDefinition.fields o.input) :
    o.inputType? field.name = some field.expr ∧
      ∃ type, o.variableTypes.get? field.name = some type ∧ field.DeclaredAs type := by
  have hname : field.name ∈ o.required ++ o.optional :=
    h.names_perm.mem_iff.mpr (InputDefinition.mem_names.mpr ⟨field, hfield, rfl⟩)
  obtain ⟨first, last, hfirst, hlast⟩ := h.exists_fields hname
  have hown : first = field := by
    obtain ⟨hmem, hsame⟩ := InputDefinition.field?_eq_some hfirst
    exact InputDefinition.eq_of_name_eq hnodup hmem hfield hsame
  have hown' : last = field := by
    obtain ⟨hmem, hsame⟩ := InputDefinition.lastField?_eq_some hlast
    exact InputDefinition.eq_of_name_eq hnodup hmem hfield hsame
  rw [hown] at hfirst
  rw [hown'] at hlast
  exact ⟨by rw [inputType?, hfirst, Option.map_some], h.get?_variable hlast⟩

theorem describesInput_iff (h : o.Compiled) :
    o.DescribesInput ↔ (InputDefinition.names o.input).Nodup := by
  constructor
  · exact fun hdescribes => h.names_perm.nodup_iff.mp hdescribes.once
  · intro hnodup
    refine ⟨h.names_perm.nodup_iff.mpr hnodup, fun name => h.mem_keys, ?_, ?_⟩
    · intro name hname
      rw [h.required] at hname
      obtain ⟨field, hfield, hrequired, rfl⟩ := InputDefinition.mem_requiredNames.mp hname
      obtain ⟨hexpr, type, htype, hdeclared⟩ := h.described hnodup hfield
      cases hdeclared with
      | required => exact ⟨field.expr, hexpr, htype⟩
      | optional hoptional => cases hrequired.symm.trans hoptional
    · intro name hname
      rw [h.optional] at hname
      obtain ⟨field, hfield, hoptional, rfl⟩ := InputDefinition.mem_optionalNames.mp hname
      obtain ⟨hexpr, type, htype, hdeclared⟩ := h.described hnodup hfield
      cases hdeclared with
      | required hrequired => cases hrequired.symm.trans hoptional
      | @optional t _ hparse => exact ⟨field.expr, t, hexpr, hparse, htype⟩

end Compiled

end Operation

/-- An operation of a built schema describes its input field by field exactly when the input
declares no name twice. The variables are always the names of the two lists. Each has the type of
the last field of its name, while values are walked by the type of the first. -/
theorem input_described_iff {draft : SchemaDraft} {schema : Schema} (hok : draft.build = .ok schema)
    {o : Operation} (ho : o ∈ schema.operations) :
    (o.DescribesInput ↔ (InputDefinition.names o.input).Nodup) ∧
    (∀ name, name ∈ o.variableTypes.keys ↔ name ∈ o.required ++ o.optional) ∧
    ∀ name ∈ o.required ++ o.optional, ∃ first last type,
      InputDefinition.field? o.input name = some first ∧ o.inputType? name = some first.expr ∧
      InputDefinition.lastField? o.input name = some last ∧ o.variableTypes.get? name = some type ∧
      last.DeclaredAs type := by
  have hcompiled := Schema.compiled hok ho
  refine ⟨hcompiled.describesInput_iff, fun name => hcompiled.mem_keys, ?_⟩
  intro name hname
  obtain ⟨first, last, hfirst, hlast⟩ := hcompiled.exists_fields hname
  obtain ⟨type, htype, hdeclared⟩ := hcompiled.get?_variable hlast
  refine ⟨first, last, type, hfirst, ?_, hlast, htype, hdeclared⟩
  rw [Operation.inputType?, hfirst, Option.map_some]

/-- Users are looked for by a list of identifiers that has to be given, and by a role that may be
left out. -/
theorem directory_described :
    ∃ schema, directoryDraft.build = .ok schema ∧ ∃ o ∈ schema.operations, o.required = ["ids"] ∧
      o.optional = ["role"] ∧ o.DescribesInput := by
  have hviews : (SchemaDraft.compileAll directoryDraft.types directoryDraft.sections.toList).map
      (·.map fun o => (o.required, o.optional, InputDefinition.names o.input)) =
        .ok [(["ids"], ["role"], ["ids", "role"])] := by decide +kernel
  obtain ⟨operations, hok, o, ho, hview⟩ :=
    SchemaDraft.exists_operation (by decide +kernel) hviews (List.mem_singleton_self _)
  simp only [Prod.mk.injEq] at hview
  obtain ⟨hrequired, hoptional, hnames⟩ := hview
  refine ⟨_, hok, o, ho, hrequired, hoptional, (input_described_iff hok ho).1.mpr ?_⟩
  rw [hnames]
  decide

def findDraft : SchemaDraft :=
  SchemaDraft.empty.addAll [
    .ok (.operation .query "find" ⟨some (.ofList [("id", "Int!"), ("id?", "String")]), "Int"⟩)]

/-- The name is required and optional, and its values are walked by another type than the header
has. -/
theorem doubled_not_described :
    ∃ schema, findDraft.build = .ok schema ∧ ∃ o ∈ schema.operations,
    o.required ++ o.optional = ["id", "id"] ∧
      o.inputType? "id" = some "Int!" ∧ o.variableTypes.get? "id" = some "String" ∧
      ¬ o.DescribesInput := by
  have hviews : (SchemaDraft.compileAll findDraft.types findDraft.sections.toList).map
      (·.map fun o => (o.required ++ o.optional, o.inputType? "id", o.variableTypes.get? "id")) =
        .ok [(["id", "id"], some "Int!", some "String")] := by decide +kernel
  obtain ⟨operations, hok, o, ho, hview⟩ :=
    SchemaDraft.exists_operation (by decide +kernel) hviews (List.mem_singleton_self _)
  simp only [Prod.mk.injEq] at hview
  obtain ⟨hnames, hwalked, hdeclared⟩ := hview
  refine ⟨_, hok, o, ho, hnames, hwalked, hdeclared, ?_⟩
  intro hdescribes
  have honce := hdescribes.once
  rw [hnames] at honce
  revert honce
  decide

end GraphQLClient
