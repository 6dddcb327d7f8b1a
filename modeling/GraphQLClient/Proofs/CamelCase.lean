import GraphQLClient.Text.Basic
import Mathlib

/-!
# Camel case

Of the underscores of a text those in front stay and all others go. What else there is stays in its
place and changes at most from lower to upper case, so a text whose underscores all stand in front
is its own camel case.
-/
namespace GraphQLClient.Text

variable {c : Char} {cs : List Char}

def underscores (cs : List Char) : List Char := cs.takeWhile (· == '_')

def behindUnderscores (cs : List Char) : List Char := cs.dropWhile (· == '_')

/-- What is left of a text without underscores and without upper case. -/
def caseless (cs : List Char) : List Char := (cs.filter (· != '_')).map Char.toLower

section Words

variable {raise : Bool}

theorem toUpper_ne_underscore (hc : c ≠ '_') : c.toUpper ≠ '_' := by
  intro heq
  have halpha : c.isAlpha = false := by
    rw [← Char.isUpper_toUpper_eq_isAlpha, heq]
    rfl
  have hlower : ¬ c.isLower := by
    intro hlower
    simp [Char.isAlpha, hlower] at halpha
  exact hc ((Char.toUpper_eq_of_not_isLower hlower).symm.trans heq)

theorem underscore_not_mem_joinWords (raise : Bool) (cs : List Char) :
    '_' ∉ joinWords raise cs := by
  induction cs generalizing raise with
  | nil => exact List.not_mem_nil
  | cons c rest ih =>
    rw [joinWords]
    split_ifs with hc hraise
    · exact ih true
    · exact List.not_mem_cons_of_ne_of_not_mem (toUpper_ne_underscore hc).symm (ih false)
    · exact List.not_mem_cons_of_ne_of_not_mem (Ne.symm hc) (ih false)

/-- Nothing is raised where no underscore has been passed. -/
@[simp] theorem joinWords_self (h : '_' ∉ cs) : joinWords false cs = cs := by
  induction cs with
  | nil => rfl
  | cons c rest ih =>
    obtain ⟨hc, hrest⟩ := List.ne_and_not_mem_of_not_mem_cons h
    rw [joinWords, if_neg (Ne.symm hc), if_neg Bool.false_ne_true, ih hrest]

theorem caseless_cons (hc : c ≠ '_') (rest : List Char) :
    caseless (c :: rest) = c.toLower :: caseless rest := by
  have hkeep : (c != '_') = true := bne_iff_ne.mpr hc
  rw [caseless, List.filter_cons, if_pos hkeep, List.map_cons, caseless]

@[simp] theorem caseless_underscore (rest : List Char) : caseless ('_' :: rest) = caseless rest :=
  rfl

@[simp] theorem caseless_append (front back : List Char) :
    caseless (front ++ back) = caseless front ++ caseless back := by
  rw [caseless, List.filter_append, List.map_append, caseless, caseless]

/-- Whether or not the first letter is raised, the same is left. -/
theorem caseless_joinWords (raise : Bool) (cs : List Char) :
    caseless (joinWords raise cs) = caseless cs := by
  induction cs generalizing raise with
  | nil => rfl
  | cons c rest ih =>
    rw [joinWords]
    split_ifs with hc hraise
    · rw [hc, caseless_underscore, ih true]
    · rw [caseless_cons (toUpper_ne_underscore hc), Char.toLower_toUpper_eq_toLower, ih false,
        caseless_cons hc]
    · rw [caseless_cons hc, ih false, caseless_cons hc]

end Words

section Front

variable {front back : List Char}

/-- Underscores in front of what has none are all that a text begins with. -/
theorem underscores_append (hfront : ∀ c ∈ front, (c == '_') = true) (hback : '_' ∉ back) :
    underscores (front ++ back) = front ∧ behindUnderscores (front ++ back) = back := by
  rw [underscores, behindUnderscores, List.takeWhile_append_of_pos hfront,
    List.dropWhile_append_of_pos hfront]
  cases back with
  | nil => exact ⟨List.append_nil front, rfl⟩
  | cons c rest =>
    have hne : c ≠ '_' := (List.ne_of_not_mem_cons hback).symm
    have hc : (c == '_') = false := beq_eq_false_iff_ne.mpr hne
    simp only [List.takeWhile_cons, List.dropWhile_cons, hc, Bool.false_eq_true,
      if_false, List.append_nil, and_self]

theorem toList_camelCase (s : String) :
    (camelCase s).toList =
      underscores s.toList ++ joinWords false (behindUnderscores s.toList) := by
  rw [camelCase, String.toList_ofList]
  rfl

/-- The parts of a text in camel case. -/
theorem camelCase_parts (s : String) :
    underscores (camelCase s).toList = underscores s.toList ∧
      behindUnderscores (camelCase s).toList = joinWords false (behindUnderscores s.toList) := by
  rw [toList_camelCase]
  have hfront : ∀ c ∈ underscores s.toList, (c == '_') = true := by
    intro c hc
    exact List.mem_takeWhile_imp (p := (· == '_')) hc
  exact underscores_append hfront (underscore_not_mem_joinWords _ _)

theorem camelCase_eq_self_iff {s : String} :
    camelCase s = s ↔ '_' ∉ behindUnderscores s.toList := by
  constructor
  · intro hself
    have hbehind := (camelCase_parts s).2
    rw [hself] at hbehind
    rw [hbehind]
    exact underscore_not_mem_joinWords _ _
  · intro hnone
    apply String.toList_injective
    rw [toList_camelCase, joinWords_self hnone]
    exact List.takeWhile_append_dropWhile

end Front

/-- A text in camel case begins with the same underscores and has no others, is its own camel case,
and without underscores and upper case the same is left of it as of the text. -/
theorem camelCase_keeps_letters (s : String) :
    underscores (camelCase s).toList = underscores s.toList ∧
      '_' ∉ behindUnderscores (camelCase s).toList ∧
      camelCase (camelCase s) = camelCase s ∧
      caseless (camelCase s).toList = caseless s.toList := by
  obtain ⟨hfront, hbehind⟩ := camelCase_parts s
  have hnone : '_' ∉ behindUnderscores (camelCase s).toList := by
    rw [hbehind]
    exact underscore_not_mem_joinWords _ _
  refine ⟨hfront, hnone, camelCase_eq_self_iff.mpr hnone, ?_⟩
  calc caseless (camelCase s).toList
      = caseless (underscores s.toList) ++
          caseless (joinWords false (behindUnderscores s.toList)) := by
        rw [toList_camelCase, caseless_append]
    _ = caseless (underscores s.toList ++ behindUnderscores s.toList) := by
        rw [caseless_joinWords, caseless_append]
    _ = caseless s.toList := congrArg caseless List.takeWhile_append_dropWhile

example : camelCase "_été__x_1_" = "_étéX1" := by decide +kernel

end GraphQLClient.Text
