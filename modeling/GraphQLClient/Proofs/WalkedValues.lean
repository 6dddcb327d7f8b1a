import GraphQLClient.Proofs.CodecApplication

/-!
# What walking a value leaves alone

A walk comes to parts of a value, each at a place and with a type. It keeps what surrounds them, and
changes a part only if the part belongs to a codec. A walk that fails does so at the first part, in
the order of the text, that its codec refuses.
-/
namespace GraphQLClient

open Outcome

namespace Json

def part? : Json → Nat → Option Json
  | .array items, i => items[i]?
  | .object fields, i => fields[i]?.map Prod.snd
  | _, _ => none

/-- The part at a place, which is told by the numbers of the items and entries that lead to it. -/
def at? (value : Json) : List Nat → Option Json
  | [] => some value
  | i :: place => (value.part? i).bind (at? · place)

end Json

def ObjectDefinition.outputType? (object : ObjectDefinition) (key : String) : Option String :=
  (ObjectDefinition.field? object key).map FieldDefinition.output

def Resolved.enters (r : Resolved) : Json → Bool
  | .array _ => r.element.isSome
  | .object _ => !r.isTerminal
  | _ => false

inductive Entries.Enters (known : String → Option String) (entries : List (String × Json)) :
    Nat → String → Json → Prop where
  | entry {i : Nat} {key expr : String} {value : Json} (hentry : entries[i]? = some (key, value))
      (hexpr : known key = some expr) : Enters known entries i expr value

namespace TypeTable

variable {types : TypeTable} {direction : Direction} {expr part : String}
  {value new sub : Json} {i : Nat}
  {error : ClientError}

def walkEntry (types : TypeTable) (direction : Direction) (known : String → Option String)
    (entry : String × Json) : ClientResult (String × Json) := do
  return (entry.1, ← types.walkKnown direction (known entry.1) entry.2)

theorem walkItems_eq_mapM (items : List Json) :
    types.walkItems direction expr items = items.mapM (types.walk direction expr) := by
  induction items with
  | nil => rw [walkItems]; rfl
  | cons item rest ih => rw [walkItems, List.mapM_cons, ih]

theorem walkFields_eq_mapM (object : ObjectDefinition) (fields : List (String × Json)) :
    types.walkFields direction object fields =
      fields.mapM (types.walkEntry direction (ObjectDefinition.outputType? object)) := by
  induction fields with
  | nil => rw [walkFields]; rfl
  | cons entry rest ih =>
    obtain ⟨key, value⟩ := entry
    rw [walkFields_cons, List.mapM_cons, ih, walkEntry, bind_assoc]
    rfl

theorem serializeVariables_eq_mapM (o : Operation) (entries : List (String × Json)) :
    types.serializeVariables o entries =
      entries.mapM (types.walkEntry .serialize o.inputType?) := by
  induction entries with
  | nil => rfl
  | cons entry rest ih =>
    obtain ⟨name, value⟩ := entry
    rw [serializeVariables_cons, List.mapM_cons, ih, walkEntry, bind_assoc]
    rfl

section Entries

variable {known : String → Option String} {entries others : List (String × Json)}

theorem walkEntry_ok {entry other : String × Json}
    (h : types.walkEntry direction known entry = .ok other) :
    other.1 = entry.1 ∧ types.walkKnown direction (known entry.1) entry.2 = .ok other.2 := by
  obtain ⟨new, hnew, h⟩ := bind_eq_ok.mp h
  cases h
  exact ⟨rfl, hnew⟩

theorem walkEntries_keys (h : entries.mapM (types.walkEntry direction known) = .ok others) :
    Entries.keys others = Entries.keys entries := by
  obtain ⟨hlength, hwalked⟩ := mapM_ok h
  refine List.ext_getElem? ?_
  intro i
  simp only [Entries.keys, List.getElem?_map]
  cases hentry : entries[i]? with
  | none =>
    have hnone : others[i]? = none := by
      rw [List.getElem?_eq_none_iff] at hentry ⊢
      omega
    rw [hnone]
  | some entry =>
    obtain ⟨other, hother, hwalk⟩ := hwalked i entry hentry
    rw [hother, Option.map_some, Option.map_some, (walkEntry_ok hwalk).1]

theorem walkEntries_unknown (h : entries.mapM (types.walkEntry direction known) = .ok others)
    {key : String} (hentry : entries[i]? = some (key, value)) (hnone : known key = none) :
    others[i]? = some (key, value) := by
  obtain ⟨⟨key', new⟩, hother, hwalk⟩ := (mapM_ok h).2 i _ hentry
  obtain ⟨hkey, hnew⟩ := walkEntry_ok hwalk
  rw [hnone] at hnew
  cases hnew
  cases hkey
  exact hother

theorem walkEntries_part (h : entries.mapM (types.walkEntry direction known) = .ok others)
    (henters : Entries.Enters known entries i part sub) :
    ∃ new, (Json.object others).part? i = some new ∧ types.walk direction part sub = .ok new := by
  obtain ⟨hentry, hexpr⟩ := henters
  obtain ⟨other, hother, hwalk⟩ := (mapM_ok h).2 i _ hentry
  have hnew := (walkEntry_ok hwalk).2
  rw [hexpr] at hnew
  refine ⟨other.2, ?_, hnew⟩
  rw [Json.part?, hother, Option.map_some]

theorem walkEntries_error (h : entries.mapM (types.walkEntry direction known) = .error error) :
    ∃ i part sub, Entries.Enters known entries i part sub ∧
    types.walk direction part sub = .error error ∧
      ∀ j < i, ∀ part sub, Entries.Enters known entries j part sub →
        ∃ new, types.walk direction part sub = .ok new := by
  obtain ⟨i, ⟨key, value⟩, hentry, herror, hbefore⟩ := mapM_error h
  have hwalk : types.walkKnown direction (known key) value = .error error := by
    rcases bind_eq_error.mp herror with h | ⟨new, -, h⟩
    · exact h
    · cases h
  cases hexpr : known key with
  | none =>
    rw [hexpr] at hwalk
    cases hwalk
  | some expr =>
    rw [hexpr] at hwalk
    refine ⟨i, expr, value, .entry hentry hexpr, hwalk, ?_⟩
    rintro j hj part sub ⟨hentry, hexpr⟩
    obtain ⟨other, hother⟩ := hbefore j hj _ hentry
    have hnew := (walkEntry_ok hother).2
    rw [hexpr] at hnew
    exact ⟨other.2, hnew⟩

end Entries

/-- How a value is taken at a type: null is passed by, lists and objects are walked into, and all
else is taken as a whole. -/
inductive Treats (types : TypeTable) (expr : String) : Json → Prop where
  | null : Treats types expr .null
  | items {r : Resolved} {element : String} {items : List Json}
      (hr : types.resolveAlone expr = .ok r)
      (helement : r.element = some element) : Treats types expr (.array items)
  | fields {r : Resolved} {name : String} {object : ObjectDefinition}
      {fields : List (String × Json)}
      (hr : types.resolveAlone expr = .ok r) (htarget : r.target = .object name)
      (hobject : types.object? name = some object) : Treats types expr (.object fields)
  | whole {r : Resolved} {value : Json} (hr : types.resolveAlone expr = .ok r)
      (hnull : ¬ value.isNull)
      (henters : r.enters value = false) : Treats types expr value

inductive Meets (types : TypeTable) (expr : String) (value : Json) : String → Codec → Prop where
  | codec {r : Resolved} {codec : Codec} (hr : types.resolveAlone expr = .ok r)
      (hnull : ¬ value.isNull)
      (henters : r.enters value = false) (hcodec : types.codec? r = some codec) :
      Meets types expr value r.declared.core codec

inductive Enters (types : TypeTable) (expr : String) : Json → Nat → String → Json → Prop where
  | item {r : Resolved} {element : String} {items : List Json} {i : Nat} {item : Json}
      (hr : types.resolveAlone expr = .ok r) (helement : r.element = some element)
      (hitem : items[i]? = some item) : Enters types expr (.array items) i element item
  | field {r : Resolved} {name part : String} {object : ObjectDefinition}
      {fields : List (String × Json)}
      {i : Nat} {value : Json} (hr : types.resolveAlone expr = .ok r)
      (htarget : r.target = .object name)
      (hobject : types.object? name = some object)
      (henters : Entries.Enters (ObjectDefinition.outputType? object) fields i part value) :
      Enters types expr (.object fields) i part value

inductive Visits (types : TypeTable) : String → Json → List Nat → String → Json → Prop where
  | here {expr : String} {value : Json} : Visits types expr value [] expr value
  | inside {expr next part : String} {value inner sub : Json} {i : Nat} {place : List Nat}
      (henters : types.Enters expr value i next inner)
      (hinner : Visits types next inner place part sub) :
      Visits types expr value (i :: place) part sub

inductive VisitsInside (types : TypeTable) (enters : Nat → String → Json → Prop) :
    List Nat → String → Json → Prop where
  | inside {next part : String} {inner sub : Json} {i : Nat} {place : List Nat}
      (henters : enters i next inner)
      (hinner : types.Visits next inner place part sub) :
      VisitsInside types enters (i :: place) part sub

/-- What becomes of a part of this type: only what a codec converts is not as it was. Parts that are
walked into keep their length, their keys, and the values under unknown keys. -/
inductive Keeps (types : TypeTable) (direction : Direction) (expr : String) :
    Json → Json → Prop where
  | null : Keeps types direction expr .null .null
  | items {r : Resolved} {element : String} {items others : List Json}
      (hr : types.resolveAlone expr = .ok r)
      (helement : r.element = some element) (hlength : others.length = items.length) :
      Keeps types direction expr (.array items) (.array others)
  | fields {r : Resolved} {name : String} {object : ObjectDefinition}
      {fields others : List (String × Json)}
      (hr : types.resolveAlone expr = .ok r) (htarget : r.target = .object name)
      (hobject : types.object? name = some object)
      (hkeys : Entries.keys others = Entries.keys fields)
      (hunknown : ∀ (i : Nat) key value, fields[i]? = some (key, value) →
        ObjectDefinition.field? object key = none → others[i]? = some (key, value)) :
      Keeps types direction expr (.object fields) (.object others)
  | plain {r : Resolved} {value : Json} (hr : types.resolveAlone expr = .ok r)
      (hnull : ¬ value.isNull)
      (henters : r.enters value = false) (hcodec : types.codec? r = none) :
      Keeps types direction expr value value
  | converted {scalar : String} {codec : Codec} {value new : Json}
      (hmeets : types.Meets expr value scalar codec)
      (hnew : codec.outcome direction scalar value = .ok new) : Keeps types direction expr value new

theorem treats (hr : types.Resolves expr) (value : Json) : types.Treats expr value := by
  obtain ⟨r, hlone, hresolve⟩ := resolveAlone_ok hr
  cases value with
  | null => exact .null
  | array items =>
    cases helement : r.element with
    | none => exact .whole hlone Bool.false_ne_true (by rw [Resolved.enters, helement]; rfl)
    | some element => exact .items hlone helement
  | object fields =>
    cases htarget : r.target with
    | object name =>
      have hname : r.object? = some name := by rw [Resolved.object?, htarget]
      obtain ⟨object, hobject⟩ := object?_of_resolve hresolve hname
      exact .fields hlone htarget hobject
    | _ =>
      exact .whole hlone Bool.false_ne_true
        (by rw [Resolved.enters, Resolved.isTerminal, htarget]; rfl)
  | _ => exact .whole hlone Bool.false_ne_true rfl

theorem walk_unentered {r : Resolved} (hr : types.resolveAlone expr = .ok r)
    (hnull : ¬ value.isNull) (henters : r.enters value = false) :
    types.walk direction expr value = types.convert direction r value := by
  refine walk_whole hr hnull ?_ ?_
  · rintro items rfl
    simpa [Resolved.enters] using henters
  · rintro fields rfl
    simpa [Resolved.enters, Resolved.isTerminal] using henters

theorem Meets.walk_eq {scalar : String} {codec : Codec} (h : types.Meets expr value scalar codec) :
    types.walk direction expr value = codec.outcome direction scalar value := by
  obtain ⟨hr, hnull, henters, hcodec⟩ := h
  rw [walk_unentered hr hnull henters, convert_eq_outcome hcodec rfl]

theorem Enters.not_meets (h : types.Enters expr value i part sub)
    (scalar : String) (codec : Codec) :
    ¬ types.Meets expr value scalar codec := by
  rintro ⟨hr', -, henters, -⟩
  cases h with
  | item hr helement =>
    cases hr.symm.trans hr'
    rw [Resolved.enters, helement] at henters
    cases henters
  | field hr htarget =>
    cases hr.symm.trans hr'
    rw [Resolved.enters, Resolved.isTerminal, htarget] at henters
    cases henters

theorem Enters.resolves (hs : types.Sound) (h : types.Enters expr value i part sub) :
    types.Resolves part := by
  cases h with
  | item hr helement => exact resolves_element hs (mapError_eq_ok.mp hr) helement
  | field hr htarget hobject henters =>
    obtain ⟨hentry, hexpr⟩ := henters
    obtain ⟨field, hfield, rfl⟩ := Option.map_eq_some_iff.mp hexpr
    obtain ⟨declared, hmem, -⟩ := field?_mem hfield
    exact hs.output_resolves hobject hmem

theorem Enters.unique {other : String} {alike : Json} (h : types.Enters expr value i part sub)
    (h' : types.Enters expr value i other alike) : part = other ∧ sub = alike := by
  cases h with
  | item hr helement hitem =>
    cases h' with
    | item hr' helement' hitem' =>
      cases hr.symm.trans hr'
      exact ⟨Option.some.inj (helement.symm.trans helement'),
        Option.some.inj (hitem.symm.trans hitem')⟩
  | field hr htarget hobject henters =>
    cases h' with
    | field hr' htarget' hobject' henters' =>
      cases hr.symm.trans hr'
      cases htarget.symm.trans htarget'
      cases hobject.symm.trans hobject'
      obtain ⟨hentry, hexpr⟩ := henters
      obtain ⟨hentry', hexpr'⟩ := henters'
      cases hentry.symm.trans hentry'
      exact ⟨Option.some.inj (hexpr.symm.trans hexpr'), rfl⟩

theorem Enters.sizeOf_lt (h : types.Enters expr value i part sub) : sizeOf sub < sizeOf value := by
  cases h with
  | item hr helement hitem =>
    have hlt := List.sizeOf_lt_of_mem (List.mem_of_getElem? hitem)
    simp only [Json.array.sizeOf_spec]
    omega
  | field hr htarget hobject henters =>
    obtain ⟨hentry, -⟩ := henters
    have hlt := List.sizeOf_lt_of_mem (List.mem_of_getElem? hentry)
    simp only [Json.object.sizeOf_spec, Prod.mk.sizeOf_spec] at hlt ⊢
    omega

/-- One step of a walk that succeeds: parts come to lie where they were. -/
theorem walk_part (h : types.walk direction expr value = .ok new)
    (henters : types.Enters expr value i part sub) :
    ∃ inner, new.part? i = some inner ∧ types.walk direction part sub = .ok inner := by
  cases henters with
  | item hr helement hitem =>
    rw [walk_array hr helement, walkItems_eq_mapM] at h
    obtain ⟨others, hothers, rfl⟩ := map_eq_ok.mp h
    exact (mapM_ok hothers).2 i _ hitem
  | field hr htarget hobject henters =>
    rw [walk_object hr htarget hobject, walkFields_eq_mapM] at h
    obtain ⟨others, hothers, rfl⟩ := map_eq_ok.mp h
    exact walkEntries_part hothers henters

theorem walk_visited {place : List Nat} (h : types.walk direction expr value = .ok new)
    (hvisits : types.Visits expr value place part sub) :
    ∃ inner, new.at? place = some inner ∧ types.walk direction part sub = .ok inner := by
  induction hvisits generalizing new with
  | here => exact ⟨new, rfl, h⟩
  | inside henters _ ih =>
    obtain ⟨inner, hpart, hinner⟩ := walk_part h henters
    obtain ⟨last, hlast, hwalk⟩ := ih hinner
    refine ⟨last, ?_, hwalk⟩
    rw [Json.at?, hpart, Option.bind_some, hlast]

theorem walk_keeps (htreats : types.Treats expr value)
    (h : types.walk direction expr value = .ok new) :
    types.Keeps direction expr value new := by
  cases htreats with
  | null =>
    rw [walk] at h
    cases h
    exact .null
  | items hr helement =>
    rw [walk_array hr helement, walkItems_eq_mapM] at h
    obtain ⟨others, hothers, rfl⟩ := map_eq_ok.mp h
    exact .items hr helement (mapM_ok hothers).1
  | fields hr htarget hobject =>
    rw [walk_object hr htarget hobject, walkFields_eq_mapM] at h
    obtain ⟨others, hothers, rfl⟩ := map_eq_ok.mp h
    refine .fields hr htarget hobject (walkEntries_keys hothers) ?_
    intro i key value hentry hnone
    refine walkEntries_unknown hothers hentry ?_
    rw [ObjectDefinition.outputType?, hnone, Option.map_none]
  | @whole r value hr hnull henters =>
    cases hcodec : types.codec? r with
    | some codec =>
      have hmeets : types.Meets expr value r.declared.core codec := .codec hr hnull henters hcodec
      exact .converted hmeets (hmeets.walk_eq.symm.trans h)
    | none =>
      rw [walk_unentered hr hnull henters, convert, hcodec] at h
      cases h
      exact .plain hr hnull henters hcodec

/-- One step of a walk that fails: the codec of the value refuses it, or a part fails and those
before it do not. -/
theorem walk_refused (htreats : types.Treats expr value)
    (h : types.walk direction expr value = .error error) :
    (∃ scalar codec, types.Meets expr value scalar codec ∧
      codec.outcome direction scalar value = .error error) ∨
      ∃ i part sub, types.Enters expr value i part sub ∧
      types.walk direction part sub = .error error ∧
        ∀ j < i, ∀ part sub, types.Enters expr value j part sub →
          ∃ new, types.walk direction part sub = .ok new := by
  cases htreats with
  | null =>
    rw [walk] at h
    cases h
  | @items r element items hr helement =>
    rw [walk_array hr helement, walkItems_eq_mapM] at h
    obtain ⟨i, item, hitem, herror, hbefore⟩ := mapM_error (map_eq_error.mp h)
    refine Or.inr ⟨i, element, item, .item hr helement hitem, herror, ?_⟩
    intro j hj part sub henters
    cases henters with
    | item hr' helement' hitem' =>
      cases hr.symm.trans hr'
      cases helement.symm.trans helement'
      exact hbefore j hj sub hitem'
  | @fields r name object fields hr htarget hobject =>
    rw [walk_object hr htarget hobject, walkFields_eq_mapM] at h
    obtain ⟨i, part, sub, henters, herror, hbefore⟩ := walkEntries_error (map_eq_error.mp h)
    refine Or.inr ⟨i, part, sub, .field hr htarget hobject henters, herror, ?_⟩
    intro j hj part sub henters
    cases henters with
    | field hr' htarget' hobject' henters' =>
      cases hr.symm.trans hr'
      cases htarget.symm.trans htarget'
      cases hobject.symm.trans hobject'
      exact hbefore j hj part sub henters'
  | @whole r value hr hnull henters =>
    left
    cases hcodec : types.codec? r with
    | none =>
      rw [walk_unentered hr hnull henters, convert, hcodec] at h
      cases h
    | some codec =>
      have hmeets : types.Meets expr value r.declared.core codec := .codec hr hnull henters hcodec
      exact ⟨_, codec, hmeets, hmeets.walk_eq.symm.trans h⟩

/-- The failure is that of the first part whose codec refuses it. Places are compared as the parts
stand in the text. -/
def FirstRefusal (types : TypeTable) (direction : Direction)
    (visited : List Nat → String → Json → Prop) (error : ClientError) : Prop :=
  ∃ place part sub scalar codec, visited place part sub ∧ types.Meets part sub scalar codec ∧
    codec.outcome direction scalar sub = .error error ∧
    ∀ earlier part sub scalar codec, earlier < place → visited earlier part sub →
      types.Meets part sub scalar codec → ∃ new, codec.outcome direction scalar sub = .ok new

/-- A refusal in one of the parts entered first is the first of all when the parts before it do not
fail. -/
theorem firstRefusal_inside {enters : Nat → String → Json → Prop}
    (hunique : ∀ part sub, enters i part sub → part = expr ∧ sub = value)
    (henters : enters i expr value)
    (hbefore : ∀ j < i, ∀ part sub, enters j part sub → ∃ new, types.walk direction part sub =
      .ok new) (hfirst : types.FirstRefusal direction (types.Visits expr value) error) :
    types.FirstRefusal direction (types.VisitsInside enters) error := by
  obtain ⟨place, part, sub, scalar, codec, hvisits, hmeets, hrefuses, hearlier⟩ := hfirst
  refine ⟨i :: place, part, sub, scalar, codec, .inside henters hvisits, hmeets, hrefuses, ?_⟩
  intro earlier part sub scalar codec hlt hvisits hmeets
  cases hvisits with
  | inside henters' hinner =>
    rcases List.cons_lt_cons_iff.mp hlt with hbelow | ⟨rfl, hbelow⟩
    · obtain ⟨new, hnew⟩ := hbefore _ hbelow _ _ henters'
      obtain ⟨last, -, hlast⟩ := walk_visited hnew hinner
      exact ⟨last, hmeets.walk_eq.symm.trans hlast⟩
    · obtain ⟨rfl, rfl⟩ := hunique _ _ henters'
      exact hearlier _ _ _ scalar codec hbelow hinner hmeets

/-- The induction is on the value: a walk fails at the value itself or in the first of its parts
that fails. -/
theorem walk_firstRefusal (hs : types.Sound) {expr : String} {value : Json}
    (hr : types.Resolves expr) (h : types.walk direction expr value = .error error) :
    types.FirstRefusal direction (types.Visits expr value) error := by
  rcases walk_refused (treats hr value) h with
    ⟨scalar, codec, hmeets, hrefuses⟩ | ⟨i, part, sub, henters, herror, hbefore⟩
  · refine ⟨[], expr, value, scalar, codec, .here, hmeets, hrefuses, ?_⟩
    intro earlier part sub scalar codec hlt
    exact absurd hlt (List.not_lt_nil _)
  · have hinner := walk_firstRefusal hs (henters.resolves hs) herror
    obtain ⟨place, part, sub, scalar, codec, ⟨hfirst, hvisits⟩, hmeets, hrefuses, hearlier⟩ :=
      firstRefusal_inside (fun _ _ h => h.unique henters) henters hbefore hinner
    refine ⟨_, part, sub, scalar, codec, .inside hfirst hvisits, hmeets, hrefuses, ?_⟩
    intro earlier part' sub' scalar' codec' hlt hvisits' hmeets'
    cases hvisits' with
    -- In front of all its parts stands the value, which is walked into and so meets no codec
    -- itself.
    | here => exact absurd hmeets' (henters.not_meets _ _)
    | inside henters' hinner' => exact hearlier _ _ _ _ _ hlt (.inside henters' hinner') hmeets'
termination_by sizeOf value
decreasing_by exact henters.sizeOf_lt

theorem walk_unmet (hs : types.Sound) {expr : String} {value : Json} (hr : types.Resolves expr)
    (hunmet : ∀ place part sub, types.Visits expr value place part sub →
      ∀ scalar codec, ¬ types.Meets part sub scalar codec) :
    types.walk direction expr value = .ok value := by
  have hpart : ∀ {i part sub}, types.Enters expr value i part sub →
      types.walk direction part sub = .ok sub := by
    intro i part sub henters
    have hlt := henters.sizeOf_lt
    refine walk_unmet hs (henters.resolves hs) ?_
    intro place last inner hinner
    exact hunmet (i :: place) last inner (.inside henters hinner)
  cases treats hr value with
  | null => rw [walk]
  | items hr helement =>
    rw [walk_array hr helement, walkItems_eq_mapM, mapM_self]
    · rfl
    · intro item hitem
      obtain ⟨i, hitem⟩ := List.mem_iff_getElem?.mp hitem
      exact hpart (.item hr helement hitem)
  | @fields r name object fields hr htarget hobject =>
    rw [walk_object hr htarget hobject, walkFields_eq_mapM, mapM_self]
    · rfl
    · rintro ⟨key, part⟩ hentry
      obtain ⟨i, hentry⟩ := List.mem_iff_getElem?.mp hentry
      have hsame : types.walkKnown direction (ObjectDefinition.outputType? object key) part =
          .ok part := by
        cases hexpr : ObjectDefinition.outputType? object key with
        | none => rfl
        | some expr => exact hpart (.field hr htarget hobject (.entry hentry hexpr))
      rw [walkEntry, hsame]
      rfl
  | whole hr hnull henters =>
    rw [walk_unentered hr hnull henters, convert]
    split
    · rfl
    · rename_i codec hcodec
      exact absurd (.codec hr hnull henters hcodec) (hunmet [] _ _ .here _ codec)
termination_by sizeOf value

/-- What a walk of a value does, told by the parts that it comes to: when it succeeds every part is
found where it was and kept, when it fails a codec refused a part and none before, and without
codecs nothing changes. -/
structure Frames (types : TypeTable) (direction : Direction)
    (visited : List Nat → String → Json → Prop) (value : Json) (outcome : ClientResult Json) :
    Prop where
  kept : ∀ result, outcome = .ok result → ∀ place part sub, visited place part sub →
    ∃ new, result.at? place = some new ∧ types.Keeps direction part sub new
  refused : ∀ error, outcome = .error error → types.FirstRefusal direction visited error
  unchanged : (∀ name, types.scalarCodec? name = none) → outcome = .ok value

theorem Meets.exists_scalarCodec? {scalar : String} {codec : Codec}
    (h : types.Meets expr value scalar codec) :
    ∃ name, types.scalarCodec? name = some codec := by
  obtain ⟨-, -, -, hcodec⟩ := h
  obtain ⟨name, -, hname⟩ := List.exists_of_findSome?_eq_some hcodec
  exact ⟨name, hname⟩

theorem Visits.resolves (hs : types.Sound) {place : List Nat}
    (h : types.Visits expr value place part sub) (hr : types.Resolves expr) :
    types.Resolves part := by
  induction h with
  | here => exact hr
  | inside henters _ ih => exact ih (henters.resolves hs)

theorem walk_frames (hs : types.Sound) (hr : types.Resolves expr)
    (direction : Direction) (value : Json) :
    types.Frames direction (types.Visits expr value) value (types.walk direction expr value) := by
  constructor
  · intro result hresult place part sub hvisits
    obtain ⟨new, hnew, hwalk⟩ := walk_visited hresult hvisits
    exact ⟨new, hnew, walk_keeps (treats (hvisits.resolves hs hr) sub) hwalk⟩
  · intro error herror
    exact walk_firstRefusal hs hr herror
  · intro hnone
    refine walk_unmet hs hr ?_
    intro place part sub _ scalar codec hmeets
    obtain ⟨name, hname⟩ := hmeets.exists_scalarCodec?
    cases (hnone name).symm.trans hname

theorem serializeVariables_frames (hs : types.Sound) {o : Operation}
    (hinput : ∀ expr ∈ o.input.values, types.Resolves expr) (entries : List (String × Json)) :
    types.Frames .serialize (types.VisitsInside (Entries.Enters o.inputType? entries))
      (.object entries) ((types.serializeVariables o entries).map .object) := by
  have hresolves : ∀ {i part sub}, Entries.Enters o.inputType? entries i part sub →
      types.Resolves part := by
    rintro i part sub ⟨-, hexpr⟩
    exact hinput part (inputType?_mem hexpr)
  rw [serializeVariables_eq_mapM]
  constructor
  · intro result hresult place part sub hvisits
    obtain ⟨sent, hsent, rfl⟩ := map_eq_ok.mp hresult
    obtain ⟨henters, hinner⟩ := hvisits
    obtain ⟨new, hnew, hwalk⟩ := walkEntries_part hsent henters
    obtain ⟨last, hlast, hkept⟩ :=
      (walk_frames hs (hresolves henters) .serialize _).kept new hwalk _ _ _ hinner
    refine ⟨last, ?_, hkept⟩
    rw [Json.at?, hnew, Option.bind_some, hlast]
  · intro error herror
    obtain ⟨i, part, sub, henters, hwalk, hbefore⟩ := walkEntries_error (map_eq_error.mp herror)
    refine firstRefusal_inside ?_ henters hbefore (walk_firstRefusal hs (hresolves henters) hwalk)
    rintro part' sub' ⟨hentry', hexpr'⟩
    obtain ⟨hentry, hexpr⟩ := henters
    cases hentry.symm.trans hentry'
    exact ⟨Option.some.inj (hexpr'.symm.trans hexpr), rfl⟩
  · intro hnone
    rw [mapM_self]
    · rfl
    · rintro ⟨name, value⟩ -
      have hsame : types.walkKnown .serialize (o.inputType? name) value = .ok value := by
        cases hexpr : o.inputType? name with
        | none => rfl
        | some expr =>
          exact (walk_frames hs (hinput expr (inputType?_mem hexpr)) .serialize value).unchanged
            hnone
      rw [walkEntry, hsame]
      rfl

end TypeTable

/-- Walking a value of any type of a schema, in both directions, and walking the variables of an
operation. The variables keep their names, and those that are not declared keep their values. -/
theorem walked_values_framed (draft : SchemaDraft) (schema : Schema)
    (hbuild : draft.build = .ok schema) :
    (∀ expr ∈ schema.expressions, ∀ value,
      schema.types.Frames .parse (schema.types.Visits expr value) value
        (schema.types.parseOutput expr value) ∧
      schema.types.Frames .serialize (schema.types.Visits expr value) value
        (schema.types.walk .serialize expr value)) ∧
    ∀ o ∈ schema.operations, ∀ entries,
      schema.types.Frames .serialize
        (schema.types.VisitsInside (Entries.Enters o.inputType? entries))
        (.object entries) ((schema.types.serializeVariables o entries).map .object) ∧
      ∀ sent, schema.types.serializeVariables o entries = .ok sent →
        Entries.keys sent = Entries.keys entries ∧
        ∀ (i : Nat) name value, entries[i]? = some (name, value) → o.inputType? name = none →
          sent[i]? = some (name, value) := by
  have hs := Schema.sound_types hbuild
  constructor
  · intro expr hexpr value
    have hr := Schema.expressions_resolve hbuild expr hexpr
    exact ⟨TypeTable.walk_frames hs hr .parse value, TypeTable.walk_frames hs hr .serialize value⟩
  · intro o ho entries
    refine ⟨TypeTable.serializeVariables_frames hs (Schema.operation_resolves hbuild ho).2 entries,
      ?_⟩
    intro sent hsent
    rw [TypeTable.serializeVariables_eq_mapM] at hsent
    refine ⟨TypeTable.walkEntries_keys hsent, ?_⟩
    intro i name value hentry hnone
    exact TypeTable.walkEntries_unknown hsent hentry hnone

def albumDraft : SchemaDraft :=
  SchemaDraft.empty.addAll [
    .ok (.type "Time" (.scalar "String" (some (.tagged "at:")))),
    .ok (.type "Photo" (.object (.ofList [("taken?", ⟨none, "Time"⟩)]))),
    .ok (.type "Photos" (.scalar "[Photo!]" none)),
    .ok (.type "Album" (.object (.ofList [("photos", ⟨none, "Photos!"⟩)]))),
    .ok (.operation .query "album" ⟨some (.ofList [("since", "Time!")]), "Album"⟩)]

def albumValue (taken : Json) : Json :=
  .object [("cover", .string "at:0"), ("photos",
    .array [.object [("taken", .null)], .object [("taken", taken)]])]

theorem album_visited (taken : Json) :
    albumDraft.types.Visits "Album" (albumValue taken) [1, 0, 0] "Time" .null := by
  have halbum : (albumDraft.types.resolveAlone "Album").toOption.map Resolved.target =
      some (.object "Album") := by decide +kernel
  have hphotos : (albumDraft.types.resolveAlone "Photos!").toOption.map Resolved.element =
      some (some "Photo") := by decide +kernel
  have hphoto : (albumDraft.types.resolveAlone "Photo").toOption.map Resolved.target =
      some (.object "Photo") := by decide +kernel
  obtain ⟨album, ha, halbum⟩ := Option.map_eq_some_iff.mp halbum
  obtain ⟨photos, hps, hphotos⟩ := Option.map_eq_some_iff.mp hphotos
  obtain ⟨photo, hp, hphoto⟩ := Option.map_eq_some_iff.mp hphoto
  refine .inside (.field (toOption_eq_some.mp ha) halbum rfl (.entry rfl rfl)) ?_
  refine .inside (.item (toOption_eq_some.mp hps) hphotos rfl) ?_
  exact .inside (.field (toOption_eq_some.mp hp) hphoto rfl (.entry rfl rfl)) .here

/-- The missing time stays missing, a time that is no text is refused, and an unknown variable keeps
its name. -/
theorem album_framed :
    ∃ schema, albumDraft.build = .ok schema ∧ "Album" ∈ schema.expressions ∧
      (∃ result new, schema.types.parseOutput "Album" (albumValue (.string "at:9")) = .ok result ∧
        result.at? [1, 0, 0] = some new ∧ schema.types.Keeps .parse "Time" .null new) ∧
      (∃ error, schema.types.parseOutput "Album" (albumValue (.bool true)) = .error error ∧
        schema.types.FirstRefusal .parse
          (schema.types.Visits "Album" (albumValue (.bool true))) error) ∧
      ∃ o ∈ schema.operations, ∃ sent,
        schema.types.serializeVariables o [("note", .null), ("since", .string "9")] = .ok sent ∧
          Entries.keys sent = ["note", "since"] := by
  have hviews :
      (SchemaDraft.compileAll albumDraft.types albumDraft.sections.toList).map (·.map fun o =>
        (albumDraft.types.serializeVariables o
          [("note", .null), ("since", .string "9")]).toOption.isSome) = .ok [true] := by
    decide +kernel
  have hmade :
      (albumDraft.types.parseOutput "Album" (albumValue (.string "at:9"))).toOption.isSome =
        true := by
    decide +kernel
  have hfailed : (albumDraft.types.parseOutput "Album" (albumValue (.bool true))).toOption.isSome =
      false := by
    decide +kernel
  obtain ⟨operations, hok, o, ho, hserialized⟩ :=
    SchemaDraft.exists_operation (by decide +kernel) hviews (List.mem_singleton_self _)
  have hexpr : "Album" ∈ (Schema.mk albumDraft.types albumDraft.sections []).expressions := by
    decide +kernel
  obtain ⟨hwalks, hvariables⟩ := walked_values_framed albumDraft _ hok
  refine ⟨_, hok, hexpr, ?_, ?_, o, ho, ?_⟩
  · obtain ⟨result, hresult⟩ := Option.isSome_iff_exists.mp hmade
    have hresult := toOption_eq_some.mp hresult
    obtain ⟨new, hnew, hkept⟩ := (hwalks _ hexpr _).1.kept result hresult _ _ _ (album_visited _)
    exact ⟨result, new, hresult, hnew, hkept⟩
  · cases hresult : albumDraft.types.parseOutput "Album" (albumValue (.bool true)) with
    | ok result =>
      rw [hresult] at hfailed
      cases hfailed
    | error error => exact ⟨error, rfl, (hwalks _ hexpr _).1.refused error hresult⟩
  · obtain ⟨sent, hsent⟩ := Option.isSome_iff_exists.mp hserialized
    have hsent := toOption_eq_some.mp hsent
    exact ⟨sent, hsent, ((hvariables o ho _).2 sent hsent).1⟩

end GraphQLClient
