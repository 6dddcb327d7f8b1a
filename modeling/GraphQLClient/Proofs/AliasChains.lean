import GraphQLClient.Proofs.TypeExpressions
import GraphQLClient.Schema.Resolution

/-!
# Chains of aliases

Resolution finds the one chain of aliases that leads from a name to its target. A chain is
independent of the place of an expression, of its wrapping and of the number of steps allowed, so
what resolves in one place resolves in every other, and so do the rest of its chain and the items of
its list.
-/
namespace GraphQLClient

open Outcome

structure AliasLink where
  scalar : String
  expr : String
  next : TypeRef

namespace AliasLink

def isList (link : AliasLink) : Bool := link.next.wrapping.isList

@[simp] theorem countP_isList_cons (link : AliasLink) (rest : List AliasLink) :
    (link :: rest).countP isList =
      link.next.wrapping.isList.toNat + rest.countP isList := by
  cases h : link.next.wrapping.isList <;> simp [isList, h, Nat.add_comm]

end AliasLink

inductive AliasChain (types : TypeTable) : String → List AliasLink → Target → Prop where
  | builtin {core scalar} : BuiltinScalar.ofName? core = some scalar →
      AliasChain types core [] (.builtin scalar)
  | object {core fields} : BuiltinScalar.ofName? core = none →
      types.get? core = some (.object fields) → AliasChain types core [] (.object core)
  | enumeration {core values} : BuiltinScalar.ofName? core = none →
      types.get? core = some (.enumeration values) → AliasChain types core [] (.enumeration core)
  | scalar {core expr codec next links target} : BuiltinScalar.ofName? core = none →
      types.get? core = some (.scalar expr codec) → TypeExpr.parse expr = .ok next →
      AliasChain types next.core links target →
      AliasChain types core (⟨core, expr, next⟩ :: links) target

namespace AliasChain

variable {types : TypeTable} {core : String} {links : List AliasLink} {target : Target}

theorem object_declared (h : AliasChain types core links target) {name : String}
    (ht : target = .object name) : ∃ fields, types.get? name = some (.object fields) := by
  induction h with
  | object _ hget => cases ht; exact ⟨_, hget⟩
  | scalar _ _ _ _ ih => exact ih ht
  | builtin => cases ht
  | enumeration => cases ht

theorem not_of_undeclared (h : AliasChain types core links target)
    (hb : BuiltinScalar.ofName? core = none) : types.get? core ≠ none := by
  cases h with
  | builtin hs => simp [hb] at hs
  | object _ hget => simp [hget]
  | enumeration _ hget => simp [hget]
  | scalar _ hget => simp [hget]

theorem link_parse (h : AliasChain types core links target) {link : AliasLink}
    (hl : link ∈ links) : TypeExpr.parse link.expr = .ok link.next := by
  induction h with
  | scalar _ _ hparse _ ih =>
    rcases List.mem_cons.mp hl with rfl | hl
    · exact hparse
    · exact ih hl
  | builtin => cases hl
  | object => cases hl
  | enumeration => cases hl

theorem alias_parses (h : AliasChain types core links target)
    (hb : BuiltinScalar.ofName? core = none) {expr : String} {codec : Option Codec}
    (hget : types.get? core = some (.scalar expr codec)) :
    ∃ next, TypeExpr.parse expr = .ok next := by
  cases h with
  | builtin hs => cases hb.symm.trans hs
  | object _ hget' => cases hget.symm.trans hget'
  | enumeration _ hget' => cases hget.symm.trans hget'
  | scalar _ hget' hparse =>
    cases hget.symm.trans hget'
    exact ⟨_, hparse⟩

/-- From any alias on, the rest of a chain is a chain. -/
theorem drop_through (h : AliasChain types core links target) {before after : List AliasLink}
    {link : AliasLink} (hl : links = before ++ link :: after) :
    AliasChain types link.next.core after target := by
  induction h generalizing before with
  | scalar _ _ _ hrest ih =>
    cases before with
    | nil => cases hl; exact hrest
    | cons first before => exact ih (List.cons.inj hl).2
  | builtin => simp at hl
  | object => simp at hl
  | enumeration => simp at hl

end AliasChain

namespace Trail

/-- Follows links, unless a list would come into a list. -/
def along? (trail : Trail) : List AliasLink → Option Trail
  | [] => some trail
  | link :: rest => (trail.advance? link.expr link.next).bind fun next => next.along? rest

theorem advance?_isSome (trail : Trail) (expr : String) (next : TypeRef) :
    (trail.advance? expr next).isSome ↔
      trail.wrapping.isList.toNat + next.wrapping.isList.toNat ≤ 1 := by
  unfold advance?
  cases next.wrapping <;> cases trail.wrapping <;> simp [Wrapping.isList]

section Advance

variable {trail last : Trail} {expr : String} {next : TypeRef}

/-- What one alias adds to a trail. -/
theorem advance?_cases (h : trail.advance? expr next = some last) :
    last.current = next ∧ last.location = scalarLocation trail.current.core ∧
      last.aliases = trail.aliases ++ [trail.current.core] ∧
      ((next.wrapping.isList = false ∧ last.wrapping = trail.wrapping ∧
        last.element = trail.element) ∨
        (next.wrapping.isList = true ∧ trail.wrapping.isList = false ∧
          last.wrapping = .list next.wrapping.itemsNullable trail.wrapping.isNullable ∧
          last.element = some next.core)) := by
  unfold advance? at h
  split at h
  · rename_i hnext
    cases h
    exact ⟨rfl, rfl, rfl, Or.inl ⟨by rw [hnext]; rfl, rfl, rfl⟩⟩
  · rename_i hnext htrail
    cases h
    refine ⟨rfl, rfl, rfl, Or.inr ⟨?_, ?_, ?_, rfl⟩⟩
    · rw [hnext]
      rfl
    · rw [htrail]
      rfl
    · rw [hnext, htrail]
      rfl
  · cases h

theorem advance?_current (h : trail.advance? expr next = some last) : last.current = next :=
  (advance?_cases h).1

theorem advance?_isList (h : trail.advance? expr next = some last) :
    last.wrapping.isList.toNat = trail.wrapping.isList.toNat + next.wrapping.isList.toNat := by
  obtain ⟨-, -, -, ⟨hnext, hwrapping, -⟩ | ⟨hnext, htrail, hwrapping, -⟩⟩ := advance?_cases h
  · rw [hwrapping, hnext]
    rfl
  · rw [hwrapping, hnext, htrail]
    rfl

end Advance

/-- Of a trail and the links that it follows, one at most is a list. -/
theorem along?_isSome (trail : Trail) (links : List AliasLink) :
    (trail.along? links).isSome ↔
      trail.wrapping.isList.toNat + links.countP AliasLink.isList ≤ 1 := by
  induction links generalizing trail with
  | nil => cases h : trail.wrapping.isList <;> simp [along?]
  | cons link rest ih =>
    rw [along?, AliasLink.countP_isList_cons]
    cases ha : trail.advance? link.expr link.next with
    | none =>
      have hno := mt (advance?_isSome trail link.expr link.next).mpr (by simp [ha])
      simp only [Option.bind_none, Option.isSome_none, Bool.false_eq_true, false_iff]
      omega
    | some next =>
      rw [Option.bind_some, ih next, advance?_isList ha, Nat.add_assoc]

/-- Where an expression stands has no part in what it refers to. -/
theorem along?_start_finish (declared : TypeRef) (expr location expr' location' : String)
    (links : List AliasLink) (target : Target) :
    ((start declared expr location).along? links).map (·.finish declared target) =
      ((start declared expr' location').along? links).map (·.finish declared target) := by
  cases links with
  | nil => rfl
  | cons link rest => rfl

end Trail

namespace TypeTable

variable {types : TypeTable}

theorem follow_eq_ok_iff {declared : TypeRef} {expr location : String} {steps : Nat} {trail : Trail}
    {r : Resolved} :
    follow types declared expr location steps trail = .ok r ↔
      ∃ links target last, AliasChain types trail.current.core links target ∧
        links.length < steps ∧ trail.along? links = some last ∧
        r = last.finish declared target := by
  induction steps generalizing trail with
  | zero => exact ⟨nofun, fun ⟨_, _, _, _, h, _⟩ => absurd h (Nat.not_lt_zero _)⟩
  | succ steps ih =>
    constructor
    · intro h
      simp only [follow] at h
      split at h
      · rename_i scalar hs
        cases h
        exact ⟨[], _, trail, .builtin hs, by simp, rfl, rfl⟩
      · rename_i hb
        split at h
        · cases h
        · rename_i hget
          cases h
          exact ⟨[], _, trail, .object hb hget, by simp, rfl, rfl⟩
        · rename_i hget
          cases h
          exact ⟨[], _, trail, .enumeration hb hget, by simp, rfl, rfl⟩
        · rename_i aliasExpr codec hget
          obtain ⟨next, hparse, h⟩ := bind_eq_ok.mp h
          have hparse := mapError_eq_ok.mp hparse
          split at h
          · rename_i moved ha
            obtain ⟨links, target, last, hc, hlen, hlast, rfl⟩ := ih.mp h
            rw [Trail.advance?_current ha] at hc
            refine ⟨⟨trail.current.core, aliasExpr, next⟩ :: links, target, last,
              .scalar hb hget hparse hc, by simpa using hlen, ?_, rfl⟩
            rw [Trail.along?, ha]
            exact hlast
          · cases h
    · rintro ⟨links, target, last, hc, hlen, hlast, rfl⟩
      simp only [follow]
      cases hc with
      | builtin hs => cases hlast; rw [hs]
      | object hb hget => cases hlast; rw [hb, hget]
      | enumeration hb hget => cases hlast; rw [hb, hget]
      | @scalar _ aliasExpr _ next rest _ hb hget hparse hc =>
        obtain ⟨moved, ha, hrest⟩ := Option.bind_eq_some_iff.mp hlast
        rw [hb, hget]
        refine bind_eq_ok.mpr ⟨next, mapError_eq_ok.mpr hparse, ?_⟩
        simp only [ha]
        refine ih.mpr ⟨rest, target, last, ?_, by simpa using hlen, hrest, rfl⟩
        rw [Trail.advance?_current ha]
        exact hc

theorem resolve_eq_ok_iff {expr location : String} {r : Resolved} :
    types.resolve expr location = .ok r ↔
      ∃ declared, TypeExpr.parse expr = .ok declared ∧
        ((declared.core = voidName ∧ r = ⟨declared, declared.wrapping, .void, none, []⟩) ∨
          (declared.core ≠ voidName ∧ ∃ links target last,
            AliasChain types declared.core links target ∧ links.length ≤ maxAliases ∧
            (Trail.start declared expr location).along? links = some last ∧
            r = last.finish declared target)) := by
  simp only [resolve, TypeRef.parse]
  rw [bind_eq_ok]
  refine exists_congr fun declared => and_congr mapError_eq_ok ?_
  by_cases hv : declared.core = voidName
  · simp only [hv, if_true, true_and, ne_eq, not_true_eq_false, false_and, or_false]
    exact pure_eq_ok.trans eq_comm
  · simp only [hv, if_false, false_and, ne_eq, not_false_eq_true, true_and, false_or]
    rw [follow_eq_ok_iff]
    simp only [Trail.start, Nat.lt_succ_iff]

theorem parse_of_resolve {expr location : String} {r : Resolved}
    (h : types.resolve expr location = .ok r) :
    TypeExpr.parse expr = .ok r.declared := by
  obtain ⟨declared, hparse, ⟨-, rfl⟩ | ⟨-, links, target, last, -, -, -, rfl⟩⟩ :=
    resolve_eq_ok_iff.mp h
  · exact hparse
  · exact hparse

/-- What resolves in one place resolves to the same in every place. -/
theorem resolve_relocate {expr location : String} {r : Resolved}
    (h : types.resolve expr location = .ok r) (location' : String) :
    types.resolve expr location' = .ok r := by
  obtain ⟨declared, hparse, hvoid | ⟨hne, links, target, last, hc, hlen, hlast, rfl⟩⟩ :=
    resolve_eq_ok_iff.mp h
  · exact resolve_eq_ok_iff.mpr ⟨declared, hparse, Or.inl hvoid⟩
  · have hmap := Trail.along?_start_finish declared expr location expr location' links target
    rw [hlast, Option.map_some] at hmap
    obtain ⟨last', hlast', hfinish⟩ := Option.map_eq_some_iff.mp hmap.symm
    exact resolve_eq_ok_iff.mpr
      ⟨declared, hparse, Or.inr ⟨hne, links, target, last', hc, hlen, hlast', hfinish.symm⟩⟩

def Resolves (types : TypeTable) (expr : String) : Prop :=
  ∃ r, ∀ location, types.resolve expr location = .ok r

theorem resolves_of_resolve (location : String) {expr : String} {r : Resolved}
    (h : types.resolve expr location = .ok r) : types.Resolves expr :=
  ⟨r, resolve_relocate h⟩

theorem resolves_iff {expr : String} :
    types.Resolves expr ↔ ∃ declared, TypeExpr.parse expr = .ok declared ∧
      (declared.core = voidName ∨ ∃ links target, AliasChain types declared.core links target ∧
        links.length ≤ maxAliases ∧
        declared.wrapping.isList.toNat + links.countP AliasLink.isList ≤ 1) := by
  constructor
  · rintro ⟨r, h⟩
    obtain ⟨declared, hparse, ⟨hv, -⟩ | ⟨-, links, target, last, hc, hlen, hlast, -⟩⟩ :=
      resolve_eq_ok_iff.mp (h "")
    · exact ⟨declared, hparse, Or.inl hv⟩
    · have hsome := (Trail.along?_isSome _ _).mp (Option.isSome_of_eq_some hlast)
      exact ⟨declared, hparse, Or.inr ⟨links, target, hc, hlen, hsome⟩⟩
  · rintro ⟨declared, hparse, hrest⟩
    by_cases hv : declared.core = voidName
    · exact resolves_of_resolve "" (resolve_eq_ok_iff.mpr ⟨declared, hparse, Or.inl ⟨hv, rfl⟩⟩)
    · obtain ⟨links, target, hc, hlen, hcount⟩ := hrest.resolve_left hv
      obtain ⟨last, hlast⟩ := Option.isSome_iff_exists.mp
        ((Trail.along?_isSome (Trail.start declared expr "") links).mpr hcount)
      exact resolves_of_resolve "" (resolve_eq_ok_iff.mpr
        ⟨declared, hparse, Or.inr ⟨hv, links, target, last, hc, hlen, hlast, rfl⟩⟩)

end TypeTable

end GraphQLClient
