import GraphQLClient.Proofs.CheckedSchemas
import GraphQLClient.Proofs.TypeExpressions
import Mathlib.Data.List.Forall2

/-!
# The fields of an input

An input is looked at in three ways: as the list of its fields, by the names of the required and of
the optional ones, and by looking a name up, which gives the first field of that name. An operation
keeps the names, and the type of each variable as a header declares it.
-/
namespace GraphQLClient

open Outcome

namespace InputDefinition

variable {input : InputDefinition} {name : String}

def names (input : InputDefinition) : List String := (fields input).map InputField.name

theorem mem_names : name ∈ names input ↔ ∃ field ∈ fields input, field.name = name := List.mem_map

@[simp] theorem mem_requiredNames :
    name ∈ requiredNames input ↔ ∃ field ∈ fields input, field.isOptional = false ∧
    field.name = name := by
  simp [requiredNames, and_assoc]

@[simp] theorem mem_optionalNames :
    name ∈ optionalNames input ↔ ∃ field ∈ fields input, field.isOptional = true ∧
    field.name = name := by
  simp [optionalNames, and_assoc]

theorem field?_eq_some {field : InputField} (h : field? input name = some field) :
    field ∈ fields input ∧ field.name = name :=
  ⟨List.mem_of_find?_eq_some h, by simpa using List.find?_some h⟩

theorem field?_isSome_iff : (field? input name).isSome = true ↔ name ∈ names input := by
  simp [field?, names]

theorem required_optional_perm (input : InputDefinition) :
    (requiredNames input ++ optionalNames input).Perm (names input) := by
  have hsplit := List.filter_append_perm (fun field : InputField => field.isOptional) (fields input)
  have hnames := (List.perm_append_comm.trans hsplit).map InputField.name
  rwa [List.map_append] at hnames

end InputDefinition

inductive InputField.DeclaredAs (field : InputField) : String → Prop where
  | required {t : TypeRef} (hrequired : field.isOptional = false)
      (hparse : TypeExpr.parse field.expr = .ok t) :
      DeclaredAs field field.expr
  | optional {t : TypeRef} (hoptional : field.isOptional = true)
      (hparse : TypeExpr.parse field.expr = .ok t) :
      DeclaredAs field t.toNullable.print

structure InputField.EntersAs (field : InputField) (entry : String × String) : Prop where
  name : field.name = entry.1
  type : field.DeclaredAs entry.2

namespace Operation

variable {location : String} {fields : List InputField} {pairs : List (String × String)}

theorem variableType_declaredAs {field : InputField} {type : String}
    (h : variableType location field = .ok type) :
    field.DeclaredAs type := by
  obtain ⟨t, hparse, htype⟩ := bind_eq_ok.mp h
  have hparse := mapError_eq_ok.mp hparse
  cases hoptional : field.isOptional with
  | true =>
    rw [hoptional, if_pos rfl] at htype
    cases htype
    exact .optional hoptional hparse
  | false =>
    rw [hoptional, if_neg Bool.false_ne_true, TypeExpr.print_of_parse hparse] at htype
    cases htype
    exact .required hoptional hparse

theorem variablePairs_fields (h : variablePairs location fields = .ok pairs) :
    List.Forall₂ InputField.EntersAs fields pairs := by
  induction fields generalizing pairs with
  | nil =>
    cases h
    exact .nil
  | cons field rest ih =>
    simp only [variablePairs, bind_eq_ok, pure_eq_ok] at h
    obtain ⟨type, htype, others, hothers, rfl⟩ := h
    exact .cons ⟨rfl, variableType_declaredAs htype⟩ (ih hothers)

theorem variablePairs_keys (h : variablePairs location fields = .ok pairs) :
    Entries.keys pairs = fields.map InputField.name := by
  have hnames : List.Forall₂ Eq (fields.map InputField.name) (pairs.map Prod.fst) := by
    rw [List.forall₂_map_left_iff, List.forall₂_map_right_iff]
    exact (variablePairs_fields h).imp fun _ _ hentry => hentry.name
  rw [List.forall₂_eq_eq_eq] at hnames
  exact hnames.symm

theorem mem_variablePairs (h : variablePairs location fields = .ok pairs) {name type : String}
    (hmem : (name, type) ∈ pairs) :
    ∃ field ∈ fields, field.name = name ∧ field.DeclaredAs type := by
  have hfields := variablePairs_fields h
  clear h
  induction hfields with
  | nil => cases hmem
  | @cons field entry rest others hentry _ ih =>
    rcases List.mem_cons.mp hmem with rfl | hmem
    · exact ⟨field, List.mem_cons_self, hentry.name, hentry.type⟩
    · obtain ⟨found, hfound, hname, htype⟩ := ih hmem
      exact ⟨found, List.mem_cons_of_mem _ hfound, hname, htype⟩

end Operation

structure Operation.Compiled (o : Operation) : Prop where
  required : o.required = InputDefinition.requiredNames o.input
  optional : o.optional = InputDefinition.optionalNames o.input
  shortcuts : o.shortcuts = .ofList (Operation.shortcutPairs o.input)
  header : ∃ pairs, Operation.variablePairs (Operation.location o.kind o.name)
    (InputDefinition.fields o.input) = .ok pairs ∧ o.variableTypes = .ofList pairs

structure Schema.Declares (schema : Schema) (o : Operation) (signature : OperationSignature) : Prop
    extends o.Compiled where
  listed : (o.kind, o.name, signature) ∈ schema.sections.toList
  input : o.input = signature.input.getD .empty

namespace Schema

variable {schema : Schema} {o : Operation} {signature : OperationSignature}

theorem exists_declares {draft : SchemaDraft} (hok : draft.build = .ok schema)
    (ho : o ∈ schema.operations) : ∃ signature, schema.Declares o signature := by
  obtain ⟨-, hcompiled⟩ := SchemaDraft.build_eq_ok hok
  obtain ⟨kind, name, signature, hmem, hcompile⟩ := SchemaDraft.mem_compileAll hcompiled ho
  obtain ⟨pairs, result, hpairs, -, rfl⟩ := Operation.compile_eq_ok hcompile
  exact ⟨signature, ⟨rfl, rfl, rfl, pairs, hpairs, rfl⟩, hmem, rfl⟩

theorem compiled {draft : SchemaDraft} (hok : draft.build = .ok schema)
    (ho : o ∈ schema.operations) :
    o.Compiled := by
  obtain ⟨_, hdeclares⟩ := exists_declares hok ho
  exact hdeclares.toCompiled

end Schema

end GraphQLClient
