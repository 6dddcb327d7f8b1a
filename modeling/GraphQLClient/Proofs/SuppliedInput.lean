import GraphQLClient.Proofs.FieldUnfolding
import GraphQLClient.Proofs.RequestRoutes

/-!
# Input for calls without a request

A call may have no request of its own and still get one from the input that is supplied to it. It
does unless the fields of its result cannot all be selected, for which its own request was refused
before. Behind a chosen selection the input alone decides.
-/
namespace GraphQLClient

open Outcome

theorem Resolved.isTerminal_iff (r : Resolved) : r.isTerminal = true ↔ r.object? = none := by
  unfold isTerminal object?
  cases r.target <;> simp [Target.isTerminal]

namespace TypeTable

variable {types : TypeTable} {expr : String} {error : SchemaError}

/-- The fields of the object type in `expr` cannot all be selected. -/
def Prevents (types : TypeTable) (expr : String) (error : SchemaError) : Prop :=
  ∃ root, types.RefersTo expr root ∧ types.Blocks root error

theorem Prevents.not_unfoldable (h : types.Prevents expr error) : ¬ types.Unfoldable expr := by
  obtain ⟨root, hroot, hblocks⟩ := h
  exact hblocks.not_unfoldable hroot

theorem unfoldFields_requires {root typeName declared : String} {free path : List String}
    {field : FieldDefinition} {fields : List (String × FieldDefinition)}
    (h : field.requiresArguments = true) :
    types.unfoldFields root free typeName path ((declared, field) :: fields) =
      .error (.autoSelectRequiresArguments typeName (Text.baseName declared)) := by
  simp only [unfoldFields, h, if_true]
  rfl

theorem exists_terminal (hr : types.Resolves expr) (hnone : ∀ name, ¬ types.RefersTo expr name) :
    ∃ r, types.resolve expr expr = .ok r ∧ r.object? = none := by
  obtain ⟨r, hr⟩ := hr.resolve expr
  refine ⟨r, hr, Option.eq_none_iff_forall_not_mem.mpr ?_⟩
  intro name hname
  exact hnone name ((refersTo_iff hr).mpr hname)

theorem allFields_terminal (hr : types.Resolves expr) (hnone : ∀ name, ¬ types.RefersTo expr name) :
    types.allFields expr = .ok [] := by
  obtain ⟨r, hr, hobject⟩ := exists_terminal hr hnone
  simp only [allFields, hr, bind, Except.bind, hobject]
  rfl

theorem allFields_cases (hs : types.Sound) (hr : types.Resolves expr) :
    (types.Unfoldable expr ∧ ∃ nodes, types.allFields expr = .ok nodes) ∨
      ∃ error, types.Prevents expr error ∧ types.allFields expr = .error error := by
  by_cases hroot : ∃ root, types.RefersTo expr root
  · obtain ⟨root, hroot⟩ := hroot
    cases hresult : types.allFields expr with
    | ok nodes => exact Or.inl ⟨unfoldable_of_allFields hroot hresult, nodes, rfl⟩
    | error error => exact Or.inr ⟨error, ⟨root, hroot, blocks_of_allFields hs hroot hresult⟩, rfl⟩
  · have hnone := not_exists.mp hroot
    obtain ⟨r, hresolved, hobject⟩ := exists_terminal hr hnone
    refine Or.inl ⟨?_, [], allFields_terminal hr hnone⟩
    intro name hname
    exact absurd hname (not_reaches hresolved hobject name)

end TypeTable

namespace Operation

def bodyWith (o : Operation) (nodes : List Node) (sent : Input) : RequestBody :=
  ⟨Document.print o.kind o.name o.variableTypes nodes, .object sent⟩

def unsupplied (o : Operation) : ClientError :=
  .new .missingInput
    s!"Operation '{o.qualifiedName}' has required input; supply it with {o.inputHint} before awaiting"

variable {o : Operation} {types : TypeTable} {given entries sent : Input} {preset : Option Input}

theorem inputRequest_eq_ok (hinput : o.hasInput = true)
    (hentries : o.checkEntries (Entries.merge (preset.getD []) given) = .ok entries)
    (hsent : types.serializeVariables o entries = .ok sent) (nodes : List Node) :
    o.inputRequest types nodes preset (.object given) = .ok (o.bodyWith nodes sent) := by
  rw [inputRequest_object hinput]
  exact bind_eq_ok.mpr ⟨entries, hentries, bind_eq_ok.mpr ⟨sent, hsent, rfl⟩⟩

end Operation

namespace Schema

variable {draft : SchemaDraft} {schema : Schema} {o : Operation}

/-- Whether an operation takes a selection is told by the type that it returns. -/
theorem terminal_iff (hok : draft.build = .ok schema) (ho : o ∈ schema.operations) :
    o.terminal = true ↔ ∀ name, ¬ schema.types.RefersTo o.returnType name := by
  obtain ⟨-, hcompiled⟩ := SchemaDraft.build_eq_ok hok
  obtain ⟨kind, name, signature, -, hcompile⟩ := SchemaDraft.mem_compileAll hcompiled ho
  obtain ⟨-, result, -, hresult, rfl⟩ := Operation.compile_eq_ok hcompile
  simp only [Resolved.isTerminal_iff, TypeTable.refersTo_iff hresult]
  exact Option.eq_none_iff_forall_not_mem

/-- An operation has the selection of all fields, or something prevents it. -/
theorem defaultSelection_cases (hok : draft.build = .ok schema) (ho : o ∈ schema.operations) :
    (schema.types.Unfoldable o.returnType ∧ ∃ nodes, schema.defaultSelection o = .ok nodes) ∨
      ∃ error, schema.types.Prevents o.returnType error ∧
        schema.defaultSelection o = .error (.ofSchemaError error) := by
  have hr := (operation_resolves hok ho).1
  have heq : schema.defaultSelection o =
      (schema.types.allFields o.returnType).mapError ClientError.ofSchemaError := by
    unfold defaultSelection
    split_ifs with hterminal
    · rw [TypeTable.allFields_terminal hr ((terminal_iff hok ho).mp hterminal)]
      rfl
    · rfl
  rw [heq]
  rcases TypeTable.allFields_cases (sound_types hok) hr with
    ⟨hall, nodes, hnodes⟩ | ⟨error, hprevents, herror⟩
  · exact Or.inl ⟨hall, nodes, mapError_eq_ok.mpr hnodes⟩
  · exact Or.inr ⟨error, hprevents, mapError_eq_error.mpr ⟨error, herror, rfl⟩⟩

end Schema

namespace Client

variable {client : Client} {c : Call} {error : ClientError}

inductive Lacks (client : Client) (c : Call) : ClientError → Prop where
  | selection {error : SchemaError} (h : client.schema.types.Prevents
      c.operation.returnType error) :
      Lacks client c (.ofSchemaError error)
  | input (hall : client.schema.types.Unfoldable c.operation.returnType) (hpreset : c.preset = none)
      (hrequired : c.operation.required ≠ []) :
      Lacks client c c.operation.unsupplied
  | variables {preset : Input} {error : ClientError}
      (hall : client.schema.types.Unfoldable c.operation.returnType)
      (hpreset : c.preset = some preset)
      (herror : client.schema.types.serializeVariables c.operation preset = .error error) :
      Lacks client c error

theorem lacks_of_defaultRequest {nodes : List Node}
    (hall : client.schema.types.Unfoldable c.operation.returnType)
    (h : c.operation.defaultRequest client.schema.types nodes c.preset = .error error) :
    client.Lacks c error := by
  unfold Operation.defaultRequest at h
  split at h
  · rename_i preset hpreset
    rcases bind_eq_error.mp h with herror | ⟨sent, -, h⟩
    · exact .variables hall hpreset herror
    · cases h
  · rename_i hpreset
    split_ifs at h with hrequired
    · cases h
    · cases h
      exact .input hall hpreset fun hnil => hrequired (List.isEmpty_iff.mpr hnil)

theorem ownBody_error {draft : SchemaDraft} (hok : draft.build = .ok client.schema)
    (ho : c.operation ∈ client.schema.operations)
    (h : client.ownBody c.operation c.preset = .error error) :
    client.Lacks c error := by
  rcases Schema.defaultSelection_cases hok ho with
    ⟨hall, nodes, hnodes⟩ | ⟨reason, hprevents, hreason⟩
  · rcases bind_eq_error.mp h with hnone | ⟨nodes, -, herror⟩
    · cases hnodes.symm.trans hnone
    · exact lacks_of_defaultRequest hall herror
  · rcases bind_eq_error.mp h with herror | ⟨nodes, hnodes, -⟩
    · cases hreason.symm.trans herror
      exact .selection hprevents
    · cases hreason.symm.trans hnodes

theorem request_eq_error {kind : OperationKind} {name : String} {input : Option Json}
    {ledger ledger' : Ledger} (hcall : client.call ledger kind name input = .ok (c, ledger')) :
    c.request = .error error ↔ client.ownBody c.operation c.preset = .error error := by
  obtain ⟨-, -, hentered⟩ := call_ok hcall
  have hrequest := congrArg Prod.fst hentered
  cases hbody : client.ownBody c.operation c.preset with
  | error reason =>
    rw [hbody] at hrequest
    have hsame : .error reason = c.request := hrequest
    rw [← hsame, Except.error.injEq, Except.error.injEq]
  | ok body =>
    rw [hbody] at hrequest
    have hsame : .ok (ledger.enter c.operation body).1 = c.request := hrequest
    rw [← hsame]
    exact ⟨nofun, nofun⟩

end Client

/-- What becomes of input that an operation accepts and whose scalars travel. A call makes a request
of it when all fields of its result can be selected. Otherwise the input is refused with what the
call's own request was refused with, and no other failure of that matters. A selection makes a
request of it in any case. -/
theorem supplied_unless_prevented {draft : SchemaDraft} {client : Client}
    (hok : draft.build = .ok client.schema) {kind : OperationKind} {name : String}
    {input : Option Json} {ledger ledger' : Ledger} {c : Call}
    (hcall : client.call ledger kind name input = .ok (c, ledger'))
    (hinput : c.operation.hasInput = true) {given entries sent : Input}
    (hentries : c.operation.checkEntries (Entries.merge (c.preset.getD []) given) = .ok entries)
    (hsent : client.schema.types.serializeVariables c.operation entries = .ok sent) :
    (client.schema.types.Unfoldable c.operation.returnType →
      ∃ nodes, client.schema.defaultSelection c.operation = .ok nodes ∧
        ∀ later, ComesTo (client.callBy later c (.object given))
          (.ok (c.operation.bodyWith nodes sent))) ∧
    (¬ client.schema.types.Unfoldable c.operation.returnType →
      ∃ error, client.schema.types.Prevents c.operation.returnType error ∧
        c.request = .error (.ofSchemaError error) ∧
        ∀ later, client.callBy later c (.object given) = .error (.ofSchemaError error)) ∧
    (∀ error, c.request = .error error → client.Lacks c error) ∧
    ∀ later nodes s next, client.select later c nodes = .ok (s, next) →
      ∀ latest, ComesTo (client.selectionBy latest s (.object given))
        (.ok (c.operation.bodyWith nodes sent)) := by
  have ho := Schema.mem_of_operation (Client.call_ok hcall).1
  have hmakes := Operation.inputRequest_eq_ok hinput hentries hsent
  refine ⟨?_, ?_, ?_, ?_⟩
  · intro hall
    rcases Schema.defaultSelection_cases hok ho with ⟨-, nodes, hnodes⟩ | ⟨error, hprevents, -⟩
    · refine ⟨nodes, hnodes, ?_⟩
      intro later
      have hbody : client.suppliedBody c (.object given) = .ok (c.operation.bodyWith nodes sent) :=
        bind_eq_ok.mpr ⟨nodes, hnodes, hmakes nodes⟩
      rw [← hbody]
      exact client.callBy_comesTo later c (.object given)
    · exact absurd hall hprevents.not_unfoldable
  · intro hnot
    rcases Schema.defaultSelection_cases hok ho with ⟨hall, -⟩ | ⟨error, hprevents, herror⟩
    · exact absurd hall hnot
    · refine ⟨error, hprevents, ?_, ?_⟩
      · rw [Client.request_eq_error hcall]
        exact bind_eq_error.mpr (Or.inl herror)
      · intro later
        exact bind_eq_error.mpr (Or.inl herror)
  · intro error herror
    exact Client.ownBody_error hok ho ((Client.request_eq_error hcall).mp herror)
  · intro later nodes s next hselect latest
    obtain ⟨-, -, hoperation, hpreset, hnodes, -⟩ := Client.select_ok hselect
    have hbody : s.operation.inputRequest client.schema.types s.nodes s.preset (.object given) =
        .ok (c.operation.bodyWith nodes sent) := by
      rw [hoperation, hpreset, hnodes]
      exact hmakes nodes
    rw [← hbody]
    exact client.selectionBy_comesTo latest s (.object given)

/-- Badges have labels. Members also have posts, of which one asks for a number. -/
def clubDraft : SchemaDraft :=
  SchemaDraft.empty.addAll [
    .ok (.type "Badge" (.object (.ofList [("label", ⟨none, "String!"⟩)]))),
    .ok (.type "Member" (.object (.ofList [
      ("posts", ⟨some (.ofList [("first", "Int!")]), "[String!]!"⟩), ("id", ⟨none, "Int!"⟩)]))),
    .ok (.operation .query "badge" ⟨some (.ofList [("id", "Int!")]), "Badge"⟩),
    .ok (.operation .query "member" ⟨some (.ofList [("id", "Int!")]), "Member"⟩)]

def clubClient : Client := ⟨clubDraft.schema, false⟩

def clubInput : Input := [("id", .number (.int 1))]

theorem club_types : clubClient.schema.types = clubDraft.types := by
  have hnone : clubDraft.problems = [] := by decide +kernel
  rcases clubDraft.build_cases with ⟨hsome, -⟩ | ⟨-, operations, -, hok⟩
  · exact absurd hnone hsome
  · have hsame := Except.ok.inj ((SchemaDraft.build_eq_schema hnone).symm.trans hok)
    exact congrArg Schema.types hsame

theorem club_badges : clubClient.schema.types.Unfoldable "Badge" := by
  have hobject : clubDraft.types.object? "Badge" = some (.ofList [("label", ⟨none, "String!"⟩)]) :=
    rfl
  have hroot : (clubDraft.types.resolve "Badge" "Badge").map Resolved.object? =
      .ok (some "Badge") := by
    decide +kernel
  have hall : clubDraft.types.allFields "Badge" = .ok [.leaf "label" none] := by
    rw [TypeTable.allFields_object hroot hobject]
    exact TypeTable.unfoldFields_leaf rfl (by decide +kernel) (by rw [TypeTable.unfoldFields])
  rw [club_types]
  exact TypeTable.unfoldable_of_allFields (map_eq_ok.mp hroot) hall

theorem club_members : clubClient.schema.types.allFields "Member" =
    .error (.autoSelectRequiresArguments "Member" "posts") := by
  have hobject : clubDraft.types.object? "Member" = some (.ofList [
    ("posts", ⟨some (.ofList [("first", "Int!")]), "[String!]!"⟩), ("id", ⟨none, "Int!"⟩)]) := rfl
  rw [club_types, TypeTable.allFields_object (by decide +kernel) hobject]
  exact TypeTable.unfoldFields_requires rfl

/-- An operation of the club can be called, and takes the input. -/
theorem club_call {name returnType : String}
    (hfound : (clubDraft.schema.operation .query name).toOption.map
      (fun o => (o.kind, o.name, o.returnType, o.terminal)) =
        some (.query, name, returnType, false)) :
    ∃ c ledger, clubClient.call .empty .query name none = .ok (c, ledger) ∧
      c.operation.kind = .query ∧ c.operation.name = name ∧ c.operation.returnType = returnType ∧
      c.operation.terminal = false ∧ c.preset = none ∧ c.operation.hasInput = true ∧
      c.operation.required ≠ [] ∧
      c.operation.checkEntries (Entries.merge (c.preset.getD []) clubInput) = .ok clubInput ∧
      ∃ sent, clubClient.schema.types.serializeVariables c.operation clubInput = .ok sent := by
  have htakes : clubDraft.schema.operations.all (fun o =>
      o.hasInput && !o.required.isEmpty && (o.checkEntries clubInput).toOption.isSome &&
        (clubDraft.schema.types.serializeVariables o clubInput).toOption.isSome) =
          true := by decide +kernel
  obtain ⟨o, ho, hview⟩ := Option.map_eq_some_iff.mp hfound
  simp only [Prod.mk.injEq] at hview
  obtain ⟨hkind, hname, hreturns, hterminal⟩ := hview
  have ho : clubClient.schema.operation .query name = .ok o := toOption_eq_some.mp ho
  obtain ⟨c, ledger, hcall, rfl, hpreset⟩ := Client.call_without_input ho .empty
  have htaken := List.all_eq_true.mp htakes _ (Schema.mem_of_operation ho)
  simp only [Bool.and_eq_true, Option.isSome_iff_exists, toOption_eq_some, Bool.not_eq_true',
    List.isEmpty_eq_false_iff] at htaken
  obtain ⟨⟨⟨hinput, hrequired⟩, entries, hentries⟩, hsent⟩ := htaken
  obtain ⟨rfl, -⟩ := Operation.checkEntries_ok hentries
  refine ⟨c, ledger, hcall, hkind, hname, hreturns, hterminal, hpreset, hinput,
    hrequired, ?_, hsent⟩
  rw [hpreset]
  exact hentries

/-- A badge is found by the input though the call for it has no request. A member is found only
behind a selection. -/
theorem club_supplied :
    clubDraft.build = .ok clubClient.schema ∧
    (∃ badge ledger, clubClient.call .empty .query "badge" none = .ok (badge, ledger) ∧
      badge.request = .error badge.operation.unsupplied ∧
      ∃ body, ComesTo (clubClient.callBy ledger badge (.object clubInput)) (.ok body)) ∧
    ∃ member ledger, clubClient.call .empty .query "member" none = .ok (member, ledger) ∧
      (∃ error, member.request = .error error ∧
        clubClient.callBy ledger member (.object clubInput) = .error error) ∧
      ∃ s next, clubClient.select ledger member [.leaf "id" none] = .ok (s, next) ∧
        ∃ body, ComesTo (clubClient.selectionBy next s (.object clubInput)) (.ok body) := by
  have hbuild : clubDraft.build = .ok clubClient.schema :=
    SchemaDraft.build_eq_schema (by decide +kernel)
  refine ⟨hbuild, ?_, ?_⟩
  · obtain ⟨badge, ledger, hcall, -, -, hreturns, -, hpreset, hinput, hrequired,
        hentries, sent, hsent⟩ :=
      @club_call "badge" "Badge" (by decide +kernel)
    obtain ⟨hmakes, -⟩ := supplied_unless_prevented hbuild hcall hinput hentries hsent
    obtain ⟨nodes, hnodes, hmade⟩ := hmakes (hreturns ▸ club_badges)
    refine ⟨badge, ledger, hcall, ?_, _, hmade ledger⟩
    rw [Client.request_eq_error hcall]
    refine bind_eq_error.mpr (Or.inr ⟨nodes, hnodes, ?_⟩)
    simp only [Operation.defaultRequest, hpreset, List.isEmpty_iff, hrequired, if_false]
    rfl
  · obtain ⟨member, ledger, hcall, hkind, hname, hreturns, hterminal, -, hinput, -,
        hentries, sent, hsent⟩ :=
      @club_call "member" "Member" (by decide +kernel)
    obtain ⟨-, hrefused, -, hselected⟩ :=
      supplied_unless_prevented hbuild hcall hinput hentries hsent
    have hroot : clubClient.schema.types.RefersTo "Member" "Member" :=
      map_eq_ok.mp (by decide +kernel)
    have hblocks := TypeTable.blocks_of_allFields (Schema.sound_types hbuild) hroot club_members
    obtain ⟨error, -, hrequest, hsupplied⟩ := hrefused (hreturns ▸ hblocks.not_unfoldable hroot)
    have hchecked : (clubClient.schema.types.checkSelection "Query" "member" "Member"
        [.leaf "id" none]).toOption = some () := by decide +kernel
    rw [← hname, ← hreturns] at hchecked
    have hselects : clubClient.schema.types.checkSelection member.operation.kind.sectionName
        member.operation.name member.operation.returnType [.leaf "id" none] = .ok () := by
      rw [hkind]
      exact toOption_eq_some.mp hchecked
    obtain ⟨⟨s, next⟩, hselect⟩ := Client.select_iff.mpr ⟨hterminal, hselects⟩
    exact ⟨member, ledger, hcall, ⟨_, hrequest, hsupplied ledger⟩, s, next, hselect, _,
      hselected ledger _ s next hselect next⟩

/-- The input of a member is accepted and travels, and still no request is made of it. -/
theorem member_not_supplied :
    clubDraft.build = .ok clubClient.schema ∧
    ∃ member ledger, clubClient.call .empty .query "member" none = .ok (member, ledger) ∧
      member.operation.hasInput = true ∧
      member.operation.checkEntries (Entries.merge (member.preset.getD []) clubInput) =
        .ok clubInput ∧
      (∃ sent, clubClient.schema.types.serializeVariables member.operation clubInput = .ok sent) ∧
      clubClient.callBy ledger member (.object clubInput) = .error (.new .invalidSelection
        "Cannot auto-select field 'posts' of type 'Member': it has required arguments") := by
  obtain ⟨member, ledger, hcall, -, -, hreturns, hterminal, -, hinput, -, hentries, hsent⟩ :=
    @club_call "member" "Member" (by decide +kernel)
  refine ⟨SchemaDraft.build_eq_schema (by decide +kernel), member, ledger, hcall, hinput,
    hentries, hsent, ?_⟩
  refine bind_eq_error.mpr (Or.inl ?_)
  rw [Schema.defaultSelection, hterminal, hreturns, club_members]
  rfl

end GraphQLClient
