import GraphQLClient.Proofs.DeclaredNames
import GraphQLClient.Proofs.RequestOrigins
import GraphQLClient.Proofs.ScalarRoundTrip

/-!
# Requests are complete

The header of a document declares every variable that is sent, and every variable that the schema or
the header requires is sent.
-/
namespace GraphQLClient

open Outcome

namespace TypeRef

/-- Only what may not be null ends in a `!`. -/
theorem print_toNullable_last {t : TypeRef} (h : Text.isName t.core) :
    t.toNullable.print.toList.getLast? ≠ some '!' := by
  obtain ⟨core, wrapping, span⟩ := t
  cases wrapping with
  | list itemsNullable nullable =>
    have hprint : (toNullable ⟨core, .list itemsNullable nullable, span⟩).print.toList =
        '[' :: (core.toList ++ (bang itemsNullable).toList) ++ [']'] := by
      simp [toNullable, Wrapping.toNullable, print, bang]
    rw [hprint, List.getLast?_concat]
    decide
  | single nullable =>
    have hprint : (toNullable ⟨core, .single nullable, span⟩).print.toList = core.toList := by
      simp [toNullable, Wrapping.toNullable, print, bang]
    rw [hprint]
    intro hlast
    have hname := Text.isNameChar_of_isNameList h '!' (List.mem_of_getLast? hlast)
    exact absurd hname (by decide)

end TypeRef

/-- What may be left out is declared without a `!`. -/
theorem InputField.DeclaredAs.required_of_bang {field : InputField} {type : String}
    (h : field.DeclaredAs type) (hbang : type.toList.getLast? = some '!') :
    field.isOptional = false := by
  cases h with
  | required hrequired => exact hrequired
  | optional _ hparse =>
    exact absurd hbang (TypeRef.print_toNullable_last (TypeExpr.parse_core_isName hparse))

/-- What a server reads in front of the selection of a document: an operation with the variables
`declared`. If the name of the operation is a name, then that is the header of the document, and the
call passes each of the variables on. -/
structure Operation.HeaderReads (o : Operation) (declared : List (String × Document.TypeLiteral))
    (query : String) : Prop where
  front : Document.readDeclared? query.toList = some (o.kind, Text.baseName o.name, declared)
  header : Text.isName o.name = true → ∃ rest, Document.readHeader? query.toList =
    some (⟨o.kind, o.name, declared, o.name, declared.map fun v => (v.1, .variable v.1)⟩, rest)

namespace Schema

variable {draft : SchemaDraft} {schema : Schema} {o : Operation} {signature : OperationSignature}

theorem Declares.mem_required (h : schema.Declares o signature) {field : InputField}
    (hfield : field ∈ InputDefinition.fields o.input) (hrequired : field.isOptional = false) :
    field.name ∈ o.required := by
  rw [h.required]
  exact InputDefinition.mem_requiredNames.mpr ⟨field, hfield, hrequired, rfl⟩

/-- The header declares whatever an input may contain. -/
theorem Declares.mem_header (h : schema.Declares o signature) {name : String}
    (hname : (o.inputType? name).isSome) : name ∈ o.variableTypes.keys := by
  obtain ⟨pairs, hpairs, hheader⟩ := h.header
  obtain ⟨expr, hexpr⟩ := Option.isSome_iff_exists.mp hname
  obtain ⟨field, hfield, -⟩ := Option.map_eq_some_iff.mp hexpr
  obtain ⟨hmem, rfl⟩ := InputDefinition.field?_eq_some hfield
  rw [hheader, OrderedMap.mem_keys_ofList, Operation.variablePairs_keys hpairs]
  exact List.mem_map_of_mem hmem

theorem Declares.required_of_bang (h : schema.Declares o signature) {name type : String}
    (htype : (name, type) ∈ o.variableTypes.entries) (hbang : type.toList.getLast? = some '!') :
    name ∈ o.required := by
  obtain ⟨pairs, hpairs, hheader⟩ := h.header
  rw [hheader] at htype
  have hmem := OrderedMap.mem_of_get?_ofList (OrderedMap.get?_eq_some_iff.mpr htype)
  obtain ⟨field, hfield, rfl, hdeclared⟩ := Operation.mem_variablePairs hpairs hmem
  exact h.mem_required hfield (hdeclared.required_of_bang hbang)

/-- A server reads the variables of an operation in each of its documents, and the call as passing
each of them on. -/
theorem Declares.read (h : schema.Declares o signature) (hok : draft.build = .ok schema)
    (ho : o ∈ schema.operations) :
    ∃ vs : List Document.Variable, vs.map Document.Variable.entry = o.variableTypes.entries ∧
      ∀ nodes, o.HeaderReads (vs.map Document.Variable.read)
        (Document.print o.kind o.name o.variableTypes nodes) := by
  obtain ⟨hbase, -⟩ := isName_of_declares hok h
  obtain ⟨vs, hvs, hentries⟩ := exists_variables hok ho
  refine ⟨vs, hentries, fun nodes => ?_⟩
  have htext : (Document.print o.kind o.name o.variableTypes nodes).toList =
      Document.printList o.kind o.name (vs.map Document.Variable.entry) nodes := by
    rw [Document.print, String.toList_ofList, hentries]
  constructor
  · have hprinted : o.name = Text.baseName o.name ∨ o.name = Text.baseName o.name ++ "?" := by
      rcases Text.splitOptional_cases o.name with hplain | ⟨-, hmarked⟩
      · exact Or.inl (by rw [Text.baseName, hplain])
      · exact Or.inr hmarked
    rw [htext, Document.readDeclared?_printList hbase hprinted hvs]
  · intro hname
    refine ⟨Document.closingPart nodes, ?_⟩
    rw [htext, Document.readHeader?_printList hname hvs, Document.headerOf, List.map_map]
    rfl

end Schema

/-- The body sends the variables `sent`: none that its document does not declare, and every one that
the declaration or the document calls for. -/
structure RequestBody.Completes (body : RequestBody) (o : Operation)
    (signature : OperationSignature) (declared : List (String × Document.TypeLiteral))
    (sent : Input) : Prop where
  query : o.HeaderReads declared body.query
  bindings : body.bindings = .object sent
  known : ∀ name ∈ Entries.keys sent, name ∈ declared.map Prod.fst
  required : ∀ field ∈ InputDefinition.fields (signature.input.getD .empty),
    field.isOptional = false → field.name ∈ Entries.keys sent
  notNull : ∀ name type, (name, type) ∈ declared → type.isNullable = false →
    name ∈ Entries.keys sent

theorem Client.Builds.completes {client : Client} {o : Operation} {body : RequestBody}
    (h : client.Builds o body) {draft : SchemaDraft} (hok : draft.build = .ok client.schema)
    {signature : OperationSignature} (hdeclares : client.schema.Declares o signature) :
    ∃ declared sent, body.Completes o signature declared sent := by
  obtain ⟨nodes, input, hcovers, hbody⟩ := h.input
  obtain ⟨bindings, hbindings, rfl⟩ := Operation.buildRequest_ok hbody
  obtain ⟨vs, hentries, hread⟩ := hdeclares.read hok h.operation
  have hkeys := TypeTable.serializeVariables_keys hbindings
  refine ⟨vs.map Document.Variable.read, bindings, hread nodes, rfl, ?_, ?_, ?_⟩
  · intro name hname
    have hheader := hdeclares.mem_header (hcovers.declared name (hkeys ▸ hname))
    have hnames : (vs.map Document.Variable.read).map Prod.fst = o.variableTypes.keys := by
      rw [OrderedMap.keys, Entries.keys, ← hentries, List.map_map, List.map_map]
      rfl
    rwa [hnames]
  · intro field hfield hrequired
    rw [← hdeclares.input] at hfield
    rw [hkeys]
    exact hcovers.complete _ (hdeclares.mem_required hfield hrequired)
  · intro name type htype hnotNull
    obtain ⟨v, hv, hread⟩ := List.mem_map.mp htype
    obtain ⟨rfl, rfl⟩ := Prod.mk.inj hread
    have hentry : (v.name, v.type.print) ∈ o.variableTypes.entries :=
      hentries ▸ List.mem_map_of_mem hv
    rw [hkeys]
    exact hcovers.complete _
      (hdeclares.required_of_bang hentry (Document.TypeLiteral.bang_of_ofRef hnotNull))

/-- However a client of a built schema is used, every request it makes is for an operation of that
schema and has a complete body. -/
theorem requests_complete (draft : SchemaDraft) (schema : Schema)
    (hbuild : draft.build = .ok schema) (hasWebSocket : Bool) (transport : Transport)
    (steps : List Step) (id : Nat) (d : Dispatch)
    (hd : ((Session.start ⟨schema, hasWebSocket⟩ transport).after steps).ledger.get? id = some d) :
    d.operation ∈ schema.operations ∧ ∃ signature declared sent,
      (d.operation.kind, d.operation.name, signature) ∈ schema.sections.toList ∧
        d.body.Completes d.operation signature declared sent := by
  have hkept := (Session.kept_start ⟨schema, hasWebSocket⟩ transport).after steps
  have hsound := (Session.sound_start ⟨schema, hasWebSocket⟩ transport).after steps
  have hbuilds := hsound.requests id d hd
  rw [hkept.client] at hbuilds
  obtain ⟨signature, hdeclares⟩ := Schema.exists_declares hbuild hbuilds.operation
  obtain ⟨declared, sent, hcompletes⟩ := hbuilds.completes hbuild hdeclares
  exact ⟨hbuilds.operation, signature, declared, sent, hdeclares.listed, hcompletes⟩

/-- The call cannot be sent as it is, so the first request is made of the input. -/
def ordering : List Step :=
  [.call .mutation "place" none "call", .supply "call" (.object [("line", orderLine)]) "order"]

theorem order_complete :
    let s := (Session.start ⟨orderDraft.schema, false⟩ risingPrices).after ordering
    orderDraft.build = .ok orderDraft.schema ∧ ∃ d, s.ledger.get? 0 = some d ∧
      d.body.query =
        "mutation place($line: Line!, $note: String) \x7b\n  place(line: $line, note: $note)\n\x7d" ∧
      ∃ signature sent,
        d.body.Completes d.operation signature [("line", .named "Line" false),
          ("note", .named "String" true)] sent ∧
        "line" ∈ Entries.keys sent := by
  intro s
  have hbuild : orderDraft.build = .ok orderDraft.schema :=
    SchemaDraft.build_eq_schema (by decide +kernel)
  have hquery : (s.ledger.get? 0).map (·.body.query) =
      some "mutation place($line: Line!, $note: String) \x7b\n  place(line: $line, note: $note)\n\x7d" := by
    decide +kernel
  obtain ⟨d, hd, hquery⟩ := Option.map_eq_some_iff.mp hquery
  obtain ⟨-, signature, declared, sent, -, hcompletes⟩ :=
    requests_complete orderDraft orderDraft.schema hbuild false risingPrices ordering 0 d hd
  have hread : (Document.readDeclared? d.body.query.toList).map (·.2.2) =
      some [("line", .named "Line" false), ("note", .named "String" true)] := by
    rw [hquery]
    decide +kernel
  rw [hcompletes.query.front] at hread
  obtain rfl := Option.some.inj hread
  exact ⟨hbuild, d, hd, hquery, signature, sent, hcompletes,
    hcompletes.notNull "line" (.named "Line" false) List.mem_cons_self rfl⟩

end GraphQLClient
