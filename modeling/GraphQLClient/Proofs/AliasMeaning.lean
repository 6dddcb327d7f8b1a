import GraphQLClient.Proofs.AliasChains
import Mathlib.Logic.Relation

/-!
# What an expression refers to

The meaning of an expression is told by the chain of aliases from its core: the chain stops at the
target, passes the scalars, and has the one list there may be. Chains have no way back, so names
that lead back to themselves mean nothing.
-/
namespace GraphQLClient

open Outcome

def TypeTable.AliasTo (types : TypeTable) (name next : String) : Prop :=
  BuiltinScalar.ofName? name = none ∧ ∃ expr codec read,
    types.get? name = some (.scalar expr codec) ∧ TypeExpr.parse expr = .ok read ∧ read.core = next

namespace AliasChain

variable {types : TypeTable} {core next : String} {links : List AliasLink} {target : Target}

theorem unique (h : AliasChain types core links target) {others : List AliasLink} {other : Target}
    (h' : AliasChain types core others other) : links = others ∧ target = other := by
  induction h generalizing others with
  | builtin hs =>
    cases h' with
    | builtin hs' =>
      cases hs.symm.trans hs'
      exact ⟨rfl, rfl⟩
    | object hb => cases hb.symm.trans hs
    | enumeration hb => cases hb.symm.trans hs
    | scalar hb => cases hb.symm.trans hs
  | object hb hget =>
    cases h' with
    | builtin hs => cases hb.symm.trans hs
    | object => exact ⟨rfl, rfl⟩
    | enumeration _ hget' => cases hget.symm.trans hget'
    | scalar _ hget' => cases hget.symm.trans hget'
  | enumeration hb hget =>
    cases h' with
    | builtin hs => cases hb.symm.trans hs
    | object _ hget' => cases hget.symm.trans hget'
    | enumeration => exact ⟨rfl, rfl⟩
    | scalar _ hget' => cases hget.symm.trans hget'
  | scalar hb hget hparse _ ih =>
    cases h' with
    | builtin hs => cases hb.symm.trans hs
    | object _ hget' => cases hget.symm.trans hget'
    | enumeration _ hget' => cases hget.symm.trans hget'
    | scalar _ hget' hparse' hrest =>
      cases hget.symm.trans hget'
      cases hparse.symm.trans hparse'
      obtain ⟨rfl, rfl⟩ := ih hrest
      exact ⟨rfl, rfl⟩

theorem of_aliasTo (h : AliasChain types core links target) (hstep : types.AliasTo core next) :
    ∃ link rest, links = link :: rest ∧ AliasChain types next rest target := by
  obtain ⟨hb, expr, codec, read, hget, hparse, rfl⟩ := hstep
  cases h with
  | builtin hs => cases hb.symm.trans hs
  | object _ hget' => cases hget.symm.trans hget'
  | enumeration _ hget' => cases hget.symm.trans hget'
  | scalar _ hget' hparse' hrest =>
    cases hget.symm.trans hget'
    cases hparse.symm.trans hparse'
    exact ⟨_, _, rfl, hrest⟩

/-- Every step along a chain leaves a shorter one. -/
theorem of_transGen (h : AliasChain types core links target)
    (hpath : Relation.TransGen types.AliasTo core next) :
    ∃ rest, rest.length < links.length ∧ AliasChain types next rest target := by
  induction hpath with
  | single hstep =>
    obtain ⟨link, rest, rfl, hrest⟩ := h.of_aliasTo hstep
    exact ⟨rest, Nat.lt_succ_self _, hrest⟩
  | tail _ hstep ih =>
    obtain ⟨front, hlen, hfront⟩ := ih
    obtain ⟨link, rest, rfl, hrest⟩ := hfront.of_aliasTo hstep
    exact ⟨rest, (Nat.lt_succ_self _).trans hlen, hrest⟩

theorem not_cyclic (h : AliasChain types core links target) :
    ¬ Relation.TransGen types.AliasTo core core := by
  intro hcycle
  obtain ⟨rest, hlen, hrest⟩ := h.of_transGen hcycle
  obtain ⟨rfl, -⟩ := h.unique hrest
  exact absurd hlen (Nat.lt_irrefl _)

end AliasChain

namespace Trail

variable {trail last : Trail} {links : List AliasLink}

/-- The scalars that a trail passes are those of the chain it follows. -/
theorem along?_aliases {types : TypeTable} {core : String} {target : Target}
    (hchain : AliasChain types core links target) (hcore : trail.current.core = core)
    (h : trail.along? links = some last) :
    last.aliases = trail.aliases ++ links.map AliasLink.scalar := by
  induction hchain generalizing trail with
  | scalar _ _ _ _ ih =>
    obtain ⟨moved, hmoved, hrest⟩ := Option.bind_eq_some_iff.mp h
    obtain ⟨hcurrent, -, haliases, -⟩ := advance?_cases hmoved
    rw [ih (congrArg TypeRef.core hcurrent) hrest, haliases, hcore, List.append_assoc]
    rfl
  | _ =>
    cases h
    exact (List.append_nil _).symm

theorem along?_single (h : trail.along? links = some last) (hnone : ∀ link ∈ links, ¬ link.isList) :
    last.wrapping = trail.wrapping ∧ last.element = trail.element := by
  induction links generalizing trail with
  | nil =>
    cases h
    exact ⟨rfl, rfl⟩
  | cons link rest ih =>
    obtain ⟨moved, hmoved, hrest⟩ := Option.bind_eq_some_iff.mp h
    rw [List.forall_mem_cons] at hnone
    obtain ⟨hwrapping, helement⟩ := ih hrest hnone.2
    obtain ⟨-, -, -, ⟨-, hwrapping', helement'⟩ | ⟨hlist, -⟩⟩ := advance?_cases hmoved
    · exact ⟨hwrapping.trans hwrapping', helement.trans helement'⟩
    · exact absurd hlist hnone.1

/-- A list on the way is the only one, and gives the trail its items. -/
theorem along?_list (h : trail.along? links = some last) {link : AliasLink} (hmem : link ∈ links)
    (hlist : link.isList) :
    ¬ trail.wrapping.isList ∧
      last.wrapping = .list link.next.wrapping.itemsNullable trail.wrapping.isNullable ∧
      last.element = some link.next.core := by
  induction links generalizing trail link with
  | nil => cases hmem
  | cons first rest ih =>
    obtain ⟨moved, hmoved, hrest⟩ := Option.bind_eq_some_iff.mp h
    obtain ⟨-, -, -, ⟨hfirst, hwrapping, -⟩ | ⟨-, htrail, hwrapping, helement⟩⟩ :=
      advance?_cases hmoved
    · rcases List.mem_cons.mp hmem with rfl | hmem
      · exact absurd hlist (ne_true_of_eq_false hfirst)
      · rw [← hwrapping]
        exact ih hrest hmem hlist
    · have hnone : ∀ other ∈ rest, ¬ other.isList := by
        intro other hother hlist'
        obtain ⟨hmoved, -⟩ := ih hrest hother hlist'
        exact hmoved (congrArg Wrapping.isList hwrapping)
      rcases List.mem_cons.mp hmem with rfl | hmem
      · obtain ⟨hlast, hlast'⟩ := along?_single hrest hnone
        exact ⟨ne_true_of_eq_false htrail, hlast.trans hwrapping, hlast'.trans helement⟩
      · exact absurd hlist (hnone link hmem)

end Trail

def AliasLink.passed (written : TypeRef) (links : List AliasLink) : List TypeRef :=
  written :: links.map AliasLink.next

/-- What an expression refers to by its chain of aliases. Only the expression itself tells whether
it may be null, any of those passed may tell that it is a list. -/
structure Resolved.Reads (r : Resolved) (written : TypeRef) (links : List AliasLink)
    (reached : Target) :
    Prop where
  declared : r.declared = written
  target : r.target = reached
  aliases : r.aliases = links.map AliasLink.scalar
  isNullable : r.wrapping.isNullable = written.wrapping.isNullable
  single : (∀ t ∈ AliasLink.passed written links, ¬ t.wrapping.isList) →
    ¬ r.wrapping.isList ∧ r.element = none
  list : ∀ t ∈ AliasLink.passed written links, t.wrapping.isList → r.wrapping.isList ∧
    r.wrapping.itemsNullable = t.wrapping.itemsNullable ∧ r.element = some t.core

theorem Trail.reads_along? {types : TypeTable} {written : TypeRef} {expr location : String}
    {links : List AliasLink} {target : Target} {last : Trail}
    (hchain : AliasChain types written.core links target)
    (h : (start written expr location).along? links = some last) :
    (last.finish written target).Reads written links target := by
  have hlinks : ∀ {link : AliasLink}, link ∈ links → link.next ∈ AliasLink.passed written links :=
    fun hmem => List.mem_cons_of_mem _ (List.mem_map_of_mem hmem)
  have hself : (∀ link ∈ links, ¬ link.isList) →
      last.wrapping = written.wrapping ∧ last.element = (start written expr location).element :=
    along?_single h
  have hlink : ∀ {link : AliasLink}, link ∈ links → link.isList → ¬ written.wrapping.isList ∧
      last.wrapping = .list link.next.wrapping.itemsNullable written.wrapping.isNullable ∧
      last.element = some link.next.core := along?_list h
  refine ⟨rfl, rfl, along?_aliases hchain rfl h, ?_, ?_, ?_⟩
  · by_cases hnone : ∀ link ∈ links, ¬ link.isList
    · exact congrArg Wrapping.isNullable (hself hnone).1
    · push Not at hnone
      obtain ⟨link, hmem, hlist⟩ := hnone
      exact (congrArg Wrapping.isNullable (hlink hmem hlist).2.1).trans rfl
  · intro hnone
    obtain ⟨hwrapping, helement⟩ := hself fun link hmem => hnone _ (hlinks hmem)
    have hwritten : ¬ written.wrapping.isList := hnone _ List.mem_cons_self
    exact ⟨fun hlist => hwritten (hwrapping ▸ hlist), helement.trans (if_neg hwritten)⟩
  · intro t ht hlist
    rcases List.mem_cons.mp ht with rfl | ht
    · obtain ⟨hwrapping, helement⟩ := hself fun link hmem hlink' => (hlink hmem hlink').1 hlist
      exact ⟨(congrArg Wrapping.isList hwrapping).trans hlist,
        congrArg Wrapping.itemsNullable hwrapping, helement.trans (if_pos hlist)⟩
    · obtain ⟨link, hmem, rfl⟩ := List.mem_map.mp ht
      obtain ⟨-, hwrapping, helement⟩ := hlink hmem hlist
      exact ⟨congrArg Wrapping.isList hwrapping,
        (congrArg Wrapping.itemsNullable hwrapping).trans rfl, helement⟩

namespace TypeTable

variable {types : TypeTable}

/-- What resolves does so along its chain, and to what the chain says. -/
theorem reads_of_resolve {expr location : String} {written : TypeRef} {r : Resolved}
    (hparse : TypeExpr.parse expr = .ok written) (hcore : written.core ≠ voidName)
    (h : types.resolve expr location = .ok r) :
    ∃ links target, AliasChain types written.core links target ∧
      (links.length ≤ maxAliases ∧
        written.wrapping.isList.toNat + links.countP AliasLink.isList ≤ 1) ∧
      r.Reads written links target := by
  obtain ⟨_, hparse', ⟨hvoid, -⟩ | ⟨-, links, target, last, hchain, hlen, hlast, rfl⟩⟩ :=
    resolve_eq_ok_iff.mp h
  · cases hparse.symm.trans hparse'
    exact absurd hvoid hcore
  · cases hparse.symm.trans hparse'
    have hcount := (Trail.along?_isSome _ _).mp (Option.isSome_of_eq_some hlast)
    exact ⟨links, target, hchain, ⟨hlen, hcount⟩, Trail.reads_along? hchain hlast⟩

/-- Whatever leads to a name that leads back to itself is refused. -/
theorem resolve_cyclic {expr location core : String} {declared : TypeRef}
    (hparse : TypeExpr.parse expr = .ok declared) (hne : declared.core ≠ voidName)
    (hpath : Relation.ReflTransGen types.AliasTo declared.core core)
    (hcycle : Relation.TransGen types.AliasTo core core) :
    ∃ error, types.resolve expr location = .error error := by
  cases h : types.resolve expr location with
  | error error => exact ⟨error, rfl⟩
  | ok r =>
    obtain ⟨links, target, hchain, -⟩ := reads_of_resolve hparse hne h
    rcases Relation.reflTransGen_iff_eq_or_transGen.mp hpath with rfl | hpath
    · exact absurd hcycle hchain.not_cyclic
    · obtain ⟨rest, -, hrest⟩ := hchain.of_transGen hpath
      exact absurd hcycle hrest.not_cyclic

end TypeTable

/-- An expression other than `void` resolves exactly when it has a chain of at most 50 aliases with
at most one list among them and itself, and to what the chain says. Cyclic aliases have no chain. -/
theorem resolve_meaning (types : TypeTable) (expr location : String)
    (hcore : ∀ declared, TypeExpr.parse expr = .ok declared → declared.core ≠ voidName) :
    ((∃ r, types.resolve expr location = .ok r) ↔
      ∃ declared links target, TypeExpr.parse expr = .ok declared ∧
        AliasChain types declared.core links target ∧ links.length ≤ 50 ∧
        (AliasLink.passed declared links).countP (·.wrapping.isList) ≤ 1) ∧
    (∀ declared links target r, TypeExpr.parse expr = .ok declared →
      AliasChain types declared.core links target → types.resolve expr location = .ok r →
        r.Reads declared links target) ∧
    ∀ declared core, TypeExpr.parse expr = .ok declared →
      Relation.ReflTransGen types.AliasTo declared.core core →
      Relation.TransGen types.AliasTo core core →
        ∃ error, types.resolve expr location = .error error := by
  have hcount : ∀ declared links, (AliasLink.passed declared links).countP (·.wrapping.isList) =
      declared.wrapping.isList.toNat + links.countP AliasLink.isList := by
    intro declared links
    rw [AliasLink.passed, List.countP_cons, List.countP_map, Nat.add_comm]
    cases declared.wrapping.isList <;> rfl
  refine ⟨?_, ?_, ?_⟩
  · constructor
    · rintro ⟨r, h⟩
      obtain ⟨declared, hparse, hvoid | ⟨links, target, hchain, hlen, hlist⟩⟩ :=
        TypeTable.resolves_iff.mp (TypeTable.resolves_of_resolve location h)
      · exact absurd hvoid (hcore declared hparse)
      · exact ⟨declared, links, target, hparse, hchain, hlen,
          (hcount declared links).trans_le hlist⟩
    · rintro ⟨declared, links, target, hparse, hchain, hlen, hlist⟩
      rw [hcount] at hlist
      have hresolves : types.Resolves expr :=
        TypeTable.resolves_iff.mpr ⟨declared, hparse, Or.inr ⟨links, target, hchain, hlen, hlist⟩⟩
      exact hresolves.imp fun r hr => hr location
  · intro declared links target r hparse hchain h
    obtain ⟨others, other, hchain', -, hreads⟩ :=
      TypeTable.reads_of_resolve hparse (hcore declared hparse) h
    obtain ⟨rfl, rfl⟩ := hchain.unique hchain'
    exact hreads
  · intro declared core hparse hpath hcycle
    exact TypeTable.resolve_cyclic hparse (hcore declared hparse) hpath hcycle

/-- The scalars `R1`, `R2` and so on, each an alias of the next, and the last one of a list. -/
def rungs (count : Nat) : TypeTable :=
  .ofList ((List.range count).map fun i =>
    ("R" ++ toString (i + 1),
      .scalar (if i + 1 = count then "[Int!]!" else "R" ++ toString (i + 2) ++ "!") none))

def circle : TypeTable := .ofList [("Ping", .scalar "Pong" none), ("Pong", .scalar "Ping" none)]

theorem circle_cyclic : Relation.TransGen circle.AliasTo "Ping" "Ping" := by
  obtain ⟨_, hping⟩ := @TypeExpr.parse_of_isName "Ping" (by decide)
  obtain ⟨_, hpong⟩ := @TypeExpr.parse_of_isName "Pong" (by decide)
  have hforth : circle.AliasTo "Ping" "Pong" := ⟨by decide, "Pong", none, _, rfl, hpong, rfl⟩
  have hback : circle.AliasTo "Pong" "Ping" := ⟨by decide, "Ping", none, _, rfl, hping, rfl⟩
  exact .tail (.single hforth) hback

/-- Fifty aliases are followed, up to the list that the last of them is; one more is not, and those
that go round are not. -/
theorem rungs_meaning :
    (∃ r written links target, (rungs 50).resolve "R1" "here" = .ok r ∧
      AliasChain (rungs 50) written.core links target ∧ r.Reads written links target ∧
      links.length = 50 ∧ r.wrapping = .list false true ∧ r.element = some "Int") ∧
    (¬ ∃ written links target, TypeExpr.parse "R1" = .ok written ∧
      AliasChain (rungs 51) written.core links target ∧ links.length ≤ 50 ∧
      (AliasLink.passed written links).countP (·.wrapping.isList) ≤ 1) ∧
    ∃ error, circle.resolve "Ping" "here" = .error error := by
  have hcore : ∀ {name : String}, Text.isName name → name ≠ voidName →
      ∀ written, TypeExpr.parse name = .ok written → written.core ≠ voidName := by
    intro name hname hne written hwritten
    obtain ⟨_, hself⟩ := TypeExpr.parse_of_isName hname
    cases hself.symm.trans hwritten
    exact hne
  have hrung := @hcore "R1" (by decide) (by decide)
  have hping := @hcore "Ping" (by decide) (by decide)
  refine ⟨?_, ?_, ?_⟩
  · have hview : ((rungs 50).resolve "R1" "here").toOption.map
        (fun r => (r.aliases.length, r.wrapping, r.element)) =
          some (50, .list false true, some "Int") := by decide +kernel
    obtain ⟨r, hr, hview⟩ := Option.map_eq_some_iff.mp hview
    simp only [Prod.mk.injEq] at hview
    obtain ⟨hlength, hwrapping, helement⟩ := hview
    have hok := toOption_eq_some.mp hr
    obtain ⟨hiff, hreads, -⟩ := resolve_meaning (rungs 50) "R1" "here" hrung
    obtain ⟨written, links, target, hparse, hchain, -⟩ := hiff.mp ⟨r, hok⟩
    have hread := hreads written links target r hparse hchain hok
    refine ⟨r, written, links, target, hok, hchain, hread, ?_, hwrapping, helement⟩
    rw [← hlength, hread.aliases, List.length_map]
  · rw [← (resolve_meaning (rungs 51) "R1" "here" hrung).1]
    rintro ⟨r, hr⟩
    have hnone : ((rungs 51).resolve "R1" "here").toOption.isSome = false := by decide +kernel
    rw [hr] at hnone
    cases hnone
  · obtain ⟨_, hself⟩ := @TypeExpr.parse_of_isName "Ping" (by decide)
    exact (resolve_meaning circle "Ping" "here" hping).2.2 _ "Ping" hself .refl circle_cyclic

end GraphQLClient
