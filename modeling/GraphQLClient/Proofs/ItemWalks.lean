import GraphQLClient.Proofs.WalkedValues

/-!
# Items on a walk

The items of a list are walked by the name that the list has for them. They come to what the list
refers to, and to the codecs of its aliases that stand behind the list.
-/
namespace GraphQLClient

open Outcome

namespace TypeTable

variable {types : TypeTable} {expr : String}

/-- The codec of a list is one that is passed before its items are named, or that of the items. -/
theorem codec?_of_aliases {list item : Resolved} {passed : List String}
    (h : list.aliases = passed ++ item.aliases) :
    types.codec? list = (passed.findSome? types.scalarCodec?).or (types.codec? item) := by
  rw [codec?, h, List.findSome?_append, codec?]

/-- A list is walked item by item. An item meets what the list refers to, and of the codecs those
that the list has not passed yet. -/
structure WalksItems (types : TypeTable) (expr element : String) (list item : Resolved) : Prop where
  items : ∀ direction items, types.walk direction expr (.array items) =
    (items.mapM (types.walk direction element)).map .array
  fields : ∀ direction name object fields, list.target = .object name →
    types.object? name = some object →
    types.walk direction element (.object fields) =
      (types.walkFields direction object fields).map .object
  whole : ∀ direction value, ¬ value.isNull → (∀ fields, value = .object fields → list.isTerminal) →
    types.walk direction element value = types.convert direction item value
  codec : ∃ passed, list.aliases = passed ++ item.aliases ∧
    types.codec? list = (passed.findSome? types.scalarCodec?).or (types.codec? item)

theorem walksItems_of_isItemOf {element : String} {list item : Resolved}
    (hlist : types.resolveAlone expr = .ok list) (helement : list.element = some element)
    (hitem : types.resolveAlone element = .ok item) (h : item.IsItemOf list) :
    types.WalksItems expr element list item where
  items direction items := by
    rw [walk_array hlist helement, walkItems_eq_mapM]
  fields direction name object fields htarget hobject :=
    walk_object hitem (h.target.trans htarget) hobject fields
  whole direction value hnull hobject := by
    refine walk_whole hitem hnull (fun _ _ => h.element) ?_
    intro fields hfields
    rw [h.target]
    exact hobject fields hfields
  codec := by
    obtain ⟨passed, hpassed⟩ := h.aliases
    exact ⟨passed, hpassed.symm, codec?_of_aliases hpassed.symm⟩

end TypeTable

/-- What resolves to a list, and nothing else, names its items. Their name resolves by itself to no
list, with the target of the list and the rest of its aliases, and it is by this name that the items
are walked. -/
theorem list_items_coherent (types : TypeTable) (hvoid : types.get? voidName = none)
    (expr location : String) (r : Resolved) (h : types.resolve expr location = .ok r)
    (hcore : r.declared.core ≠ voidName) :
    (r.element.isSome ↔ r.wrapping.isList) ∧
      ∀ element, r.element = some element →
        ∃ item, (∀ place, types.resolve element place = .ok item) ∧ item.IsItemOf r ∧
          types.WalksItems expr element r item := by
  refine ⟨TypeTable.element_isSome_iff h hcore, ?_⟩
  intro element helement
  obtain ⟨item, hitem, hof⟩ := TypeTable.resolve_element hvoid h helement
  have halone : types.resolveAlone expr = .ok r :=
    mapError_eq_ok.mpr (TypeTable.resolve_relocate h expr)
  have halone' : types.resolveAlone element = .ok item := mapError_eq_ok.mpr (hitem element)
  exact ⟨item, hitem, hof, TypeTable.walksItems_of_isItemOf halone helement halone' hof⟩

def agenda : TypeTable := .ofList [
  ("Slots", .scalar "Days!" none), ("Days", .scalar "[Day!]!" (some .boxed)),
  ("Day", .scalar "String" (some (.tagged "day-")))]

/-- A day of the agenda loses its tag, as a day does by itself, and is not boxed as a list would
be. -/
theorem agenda_items :
    ∃ r item, agenda.get? voidName = none ∧ agenda.resolve "Slots" "here" = .ok r ∧
      r.declared.core ≠ voidName ∧ r.element = some "Day" ∧ r.aliases = ["Slots", "Days", "Day"] ∧
      agenda.resolve "Day" "there" = .ok item ∧ item.IsItemOf r ∧ item.aliases = ["Day"] ∧
      agenda.walk .parse "Slots" (.array [.string "day-1", .null]) =
        .ok (.array [.string "1", .null]) := by
  obtain ⟨r, hr, hview⟩ : ∃ r, (agenda.resolve "Slots" "here").toOption = some r ∧
      (r.declared.core, r.element, r.aliases) = ("Slots", some "Day", ["Slots", "Days", "Day"]) :=
    Option.map_eq_some_iff.mp (by decide +kernel)
  simp only [Prod.mk.injEq] at hview
  obtain ⟨hname, helement, haliases⟩ := hview
  have hok := toOption_eq_some.mp hr
  have hcore : r.declared.core ≠ voidName := by
    rw [hname]
    decide
  obtain ⟨-, hitems⟩ := list_items_coherent agenda rfl "Slots" "here" r hok hcore
  obtain ⟨item, hitem, hof, hwalks⟩ := hitems "Day" helement
  have hview : (agenda.resolve "Day" "there").toOption.map Resolved.aliases = some ["Day"] := by
    decide +kernel
  rw [hitem] at hview
  have halone := Option.some.inj hview
  refine ⟨r, item, rfl, hok, hcore, helement, haliases, hitem "there", hof, halone, ?_⟩
  have hday : agenda.walk .parse "Day" (.string "day-1") = .ok (.string "1") := by
    rw [hwalks.whole .parse (.string "day-1") Bool.false_ne_true
      (by intro fields hfields; cases hfields), TypeTable.convert, TypeTable.codec?, halone]
    rfl
  have hnull : agenda.walk .parse "Day" .null = .ok .null := by rw [TypeTable.walk]
  rw [hwalks.items, List.mapM_cons, List.mapM_cons, List.mapM_nil, hday, hnull]
  rfl

end GraphQLClient
