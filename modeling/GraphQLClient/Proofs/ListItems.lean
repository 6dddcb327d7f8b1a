import GraphQLClient.Proofs.AliasMeaning

/-!
# Items of lists

The items of a list are named where its chain of aliases has its list, and what is left of the chain
there is theirs. So an item refers to what the list refers to.
-/
namespace GraphQLClient

namespace AliasChain

variable {types : TypeTable} {core : String} {links : List AliasLink} {target : Target}

/-- The name that stands for nothing has no chain, unless a type is declared by it. -/
theorem core_ne_void (h : AliasChain types core links target) (hvoid : types.get? voidName = none) :
    core ≠ voidName := by
  rintro rfl
  exact h.not_of_undeclared (by decide) hvoid

/-- From every expression that is passed on, the rest of the chain leads to the same target. Behind
the one that is a list there is no other. -/
theorem rest_of_mem_passed {written t : TypeRef} (h : AliasChain types written.core links target)
    (ht : t ∈ AliasLink.passed written links) :
    ∃ front rest, links = front ++ rest ∧ AliasChain types t.core rest target ∧
      (t.wrapping.isList → written.wrapping.isList.toNat + links.countP AliasLink.isList ≤ 1 →
        rest.countP AliasLink.isList = 0) := by
  rcases List.mem_cons.mp ht with rfl | ht
  · refine ⟨[], links, rfl, h, ?_⟩
    intro hlist hcount
    rw [hlist, Bool.toNat_true] at hcount
    omega
  · obtain ⟨link, hlink, rfl⟩ := List.mem_map.mp ht
    obtain ⟨before, rest, rfl⟩ := List.append_of_mem hlink
    refine ⟨before ++ [link], rest, List.append_cons before link rest, h.drop_through rfl, ?_⟩
    intro hlist hcount
    rw [List.countP_append, AliasLink.countP_isList_cons, hlist, Bool.toNat_true] at hcount
    omega

end AliasChain

structure Resolved.IsItemOf (item list : Resolved) : Prop where
  single : ¬ item.wrapping.isList
  element : item.element = none
  target : item.target = list.target
  aliases : item.aliases <:+ list.aliases

namespace TypeTable

variable {types : TypeTable} {expr location : String} {r : Resolved}

theorem resolves_core {core : String} {links : List AliasLink} {target : Target}
    (hname : Text.isName core) (hchain : AliasChain types core links target)
    (hlength : links.length ≤ maxAliases) (hcount : links.countP AliasLink.isList ≤ 1) :
    types.Resolves core := by
  obtain ⟨span, hparse⟩ := TypeExpr.parse_of_isName hname
  exact resolves_iff.mpr
    ⟨_, hparse, Or.inr ⟨links, target, hchain, hlength, by simpa [Wrapping.isList] using hcount⟩⟩

theorem core_ne_void_of_element (h : types.resolve expr location = .ok r) {element : String}
    (helement : r.element = some element) : r.declared.core ≠ voidName := by
  obtain ⟨declared, hparse, ⟨-, rfl⟩ | ⟨hne, links, target, last, -, -, -, rfl⟩⟩ :=
    resolve_eq_ok_iff.mp h
  · cases helement
  · exact hne

/-- What resolves to a list names its items, and nothing else does. -/
theorem element_isSome_iff (h : types.resolve expr location = .ok r)
    (hcore : r.declared.core ≠ voidName) :
    r.element.isSome ↔ r.wrapping.isList := by
  obtain ⟨links, target, -, -, hreads⟩ := reads_of_resolve (parse_of_resolve h) hcore h
  by_cases hlist : ∃ t ∈ AliasLink.passed r.declared links, t.wrapping.isList
  · obtain ⟨t, ht, hlist⟩ := hlist
    obtain ⟨hwrapping, -, helement⟩ := hreads.list t ht hlist
    simp [hwrapping, helement]
  · obtain ⟨hwrapping, helement⟩ := hreads.single fun t ht hlist' => hlist ⟨t, ht, hlist'⟩
    simp [hwrapping, helement]

theorem exists_passed_of_element {written : TypeRef} {links : List AliasLink} {target : Target}
    (hreads : r.Reads written links target) {element : String}
    (helement : r.element = some element) :
    ∃ t ∈ AliasLink.passed written links, t.wrapping.isList ∧ t.core = element := by
  by_contra hnone
  have hsingle : ∀ t ∈ AliasLink.passed written links, ¬ t.wrapping.isList := by
    intro t ht hlist
    have hcore := (hreads.list t ht hlist).2.2
    exact hnone ⟨t, ht, hlist, Option.some.inj (hcore.symm.trans helement)⟩
  cases helement.symm.trans (hreads.single hsingle).2

theorem passed_isName {written t : TypeRef} {links : List AliasLink} {target : Target}
    (hparse : TypeExpr.parse expr = .ok written)
    (hchain : AliasChain types written.core links target)
    (ht : t ∈ AliasLink.passed written links) : Text.isName t.core := by
  rcases List.mem_cons.mp ht with rfl | ht
  · exact TypeExpr.parse_core_isName hparse
  · obtain ⟨link, hlink, rfl⟩ := List.mem_map.mp ht
    exact TypeExpr.parse_core_isName (hchain.link_parse hlink)

theorem resolve_element (hvoid : types.get? voidName = none)
    (h : types.resolve expr location = .ok r) {element : String}
    (helement : r.element = some element) :
    ∃ item : Resolved, (∀ place, types.resolve element place = .ok item) ∧ item.IsItemOf r := by
  have hparse := parse_of_resolve h
  obtain ⟨links, target, hchain, ⟨hlength, hcount⟩, hreads⟩ :=
    reads_of_resolve hparse (core_ne_void_of_element h helement) h
  obtain ⟨t, ht, hlist, rfl⟩ := exists_passed_of_element hreads helement
  obtain ⟨front, rest, rfl, hrest, hnone⟩ := hchain.rest_of_mem_passed ht
  have hzero : rest.countP AliasLink.isList = 0 := hnone hlist hcount
  have hname := passed_isName hparse hchain ht
  have hshort : rest.length ≤ maxAliases := by
    rw [List.length_append] at hlength
    omega
  obtain ⟨item, hitem⟩ := resolves_core hname hrest hshort (by omega)
  obtain ⟨span, hself⟩ := TypeExpr.parse_of_isName hname
  obtain ⟨others, other, hchain', -, hread⟩ :=
    reads_of_resolve hself (hrest.core_ne_void hvoid) (hitem location)
  obtain ⟨rfl, rfl⟩ := hrest.unique hchain'
  have hsingle : ∀ u ∈ AliasLink.passed ⟨t.core, .single true, span⟩ rest, ¬ u.wrapping.isList := by
    intro u hu
    rcases List.mem_cons.mp hu with rfl | hu
    · exact Bool.false_ne_true
    · obtain ⟨link, hlink, rfl⟩ := List.mem_map.mp hu
      exact List.countP_eq_zero.mp hzero link hlink
  obtain ⟨hwrapping, hunnamed⟩ := hread.single hsingle
  refine ⟨item, hitem, hwrapping, hunnamed, hread.target.trans hreads.target.symm, ?_⟩
  rw [hread.aliases, hreads.aliases, List.map_append]
  exact List.suffix_append _ _

end TypeTable

end GraphQLClient
