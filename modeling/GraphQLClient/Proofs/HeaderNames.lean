import GraphQLClient.Http.Exchange
import Mathlib.Data.List.Basic

/-!
# Names of headers

Header names are told apart without regard to ASCII case. A header that is set again replaces the
earlier one and goes to the end, so of all that were set the last ones of each name are left, in the
order they were set in.
-/
namespace GraphQLClient.Http

def SameName (a b : String) : Prop := sameIgnoringCase a.toList b.toList = true

instance (a b : String) : Decidable (SameName a b) := inferInstanceAs (Decidable (_ = true))

namespace SameName

variable {a b c : String}

theorem eq_iff : SameName a b ↔ a.toList.map Char.toLower = b.toList.map Char.toLower := beq_iff_eq

theorem refl (a : String) : SameName a a := eq_iff.mpr rfl

theorem symm (h : SameName a b) : SameName b a := eq_iff.mpr (eq_iff.mp h).symm

theorem trans (hab : SameName a b) (hbc : SameName b c) : SameName a c :=
  eq_iff.mpr ((eq_iff.mp hab).trans (eq_iff.mp hbc))

end SameName

/-- Position `i` gives its name for the last time. -/
def IsLastOfName (given : List (String × String)) (i : Nat) : Prop :=
  ∃ header, given[i]? = some header ∧
    ∀ (j : Nat) later, i < j → given[j]? = some later → ¬ SameName header.1 later.1

section Given

variable {first header : String × String} {given rest : List (String × String)} {i : Nat}

@[simp] theorem isLastOfName_zero :
    IsLastOfName (first :: rest) 0 ↔ ∀ later ∈ rest, ¬ SameName first.1 later.1 := by
  constructor
  · rintro ⟨header, hheader, hlast⟩ later hlater
    cases hheader
    obtain ⟨j, hj⟩ := List.mem_iff_getElem?.mp hlater
    exact hlast (j + 1) later (Nat.succ_pos j) hj
  · intro hlast
    refine ⟨first, rfl, ?_⟩
    intro j later hj hlater
    cases j with
    | zero => exact absurd hj (Nat.lt_irrefl 0)
    | succ j => exact hlast later (List.mem_of_getElem? hlater)

theorem isLastOfName_succ : IsLastOfName (first :: rest) (i + 1) ↔ IsLastOfName rest i := by
  constructor
  · rintro ⟨header, hheader, hlast⟩
    exact ⟨header, hheader, fun j later hj hlater =>
      hlast (j + 1) later (Nat.succ_lt_succ hj) hlater⟩
  · rintro ⟨header, hheader, hlast⟩
    refine ⟨header, hheader, ?_⟩
    intro j later hj hlater
    cases j with
    | zero => exact absurd hj (Nat.not_lt_zero _)
    | succ j => exact hlast j later (Nat.lt_of_succ_lt_succ hj) hlater

def lastOfNames : List (String × String) → List (String × String)
  | [] => []
  | header :: rest =>
    if ∃ later ∈ rest, SameName header.1 later.1 then lastOfNames rest
    else header :: lastOfNames rest

theorem lastOfNames_cons (first : String × String) (rest : List (String × String)) :
    lastOfNames (first :: rest) =
      [first].filter (fun header => ∀ later ∈ rest, ¬ SameName header.1 later.1) ++
      lastOfNames rest := by
  rw [lastOfNames]
  by_cases hagain : ∃ later ∈ rest, SameName first.1 later.1
  · have hnot : ¬ ∀ later ∈ rest, ¬ SameName first.1 later.1 := by simpa using hagain
    rw [if_pos hagain, List.filter_cons, if_neg (by simpa only [decide_eq_true_eq] using hnot)]
    rfl
  · have hall : ∀ later ∈ rest, ¬ SameName first.1 later.1 :=
      fun later hlater hsame => hagain ⟨later, hlater, hsame⟩
    rw [if_neg hagain, List.filter_cons, if_pos (decide_eq_true hall)]
    rfl

theorem mem_of_mem_lastOfNames (h : header ∈ lastOfNames given) : header ∈ given := by
  induction given with
  | nil => cases h
  | cons first rest ih =>
    rw [lastOfNames] at h
    split_ifs at h with hagain
    · exact List.mem_cons_of_mem _ (ih h)
    · rcases List.mem_cons.mp h with rfl | h
      · exact List.mem_cons_self
      · exact List.mem_cons_of_mem _ (ih h)

theorem pairwise_lastOfNames (given : List (String × String)) :
    (lastOfNames given).Pairwise fun a b => ¬ SameName a.1 b.1 := by
  induction given with
  | nil => exact .nil
  | cons first rest ih =>
    rw [lastOfNames]
    split_ifs with hagain
    · exact ih
    · refine List.pairwise_cons.mpr ⟨?_, ih⟩
      intro later hlater hsame
      exact hagain ⟨later, mem_of_mem_lastOfNames hlater, hsame⟩

theorem lastOfNames_subset (first : String × String) (rest : List (String × String)) :
    lastOfNames rest ⊆ lastOfNames (first :: rest) := by
  rw [lastOfNames]
  split_ifs with hagain
  · exact List.Subset.refl _
  · exact List.subset_cons_self _ _

theorem exists_lastOfNames (h : header ∈ given) :
    ∃ last ∈ lastOfNames given, SameName header.1 last.1 := by
  induction given generalizing header with
  | nil => cases h
  | cons first rest ih =>
    rcases List.mem_cons.mp h with rfl | hrest
    · by_cases hagain : ∃ later ∈ rest, SameName header.1 later.1
      · obtain ⟨later, hlater, hsame⟩ := hagain
        obtain ⟨last, hlast, hlater⟩ := ih hlater
        exact ⟨last, lastOfNames_subset _ _ hlast, hsame.trans hlater⟩
      · refine ⟨header, ?_, SameName.refl header.1⟩
        rw [lastOfNames, if_neg hagain]
        exact List.mem_cons_self
    · obtain ⟨last, hlast, hsame⟩ := ih hrest
      exact ⟨last, lastOfNames_subset _ _ hlast, hsame⟩

theorem lastOfNames_positions (given : List (String × String)) :
    ∃ positions : List Nat, positions.Pairwise (· < ·) ∧
    (∀ i, i ∈ positions ↔ IsLastOfName given i) ∧
      (lastOfNames given).map some = positions.map (given[·]?) := by
  induction given with
  | nil =>
    refine ⟨[], .nil, ?_, rfl⟩
    intro i
    refine iff_of_false List.not_mem_nil ?_
    rintro ⟨header, hheader, -⟩
    cases hheader
  | cons first rest ih =>
    obtain ⟨positions, hsorted, hmem, hmap⟩ := ih
    have hsorted' : (positions.map (· + 1)).Pairwise (· < ·) :=
      List.pairwise_map.mpr (hsorted.imp Nat.succ_lt_succ)
    have hmap' : (lastOfNames rest).map some =
        (positions.map (· + 1)).map ((first :: rest)[·]?) := by
      rw [hmap, List.map_map]
      rfl
    have hsucc : ∀ i, i + 1 ∈ positions.map (· + 1) ↔ IsLastOfName (first :: rest) (i + 1) := by
      intro i
      rw [isLastOfName_succ, ← hmem]
      simp
    rw [lastOfNames]
    split_ifs with hagain
    · refine ⟨positions.map (· + 1), hsorted', ?_, hmap'⟩
      intro i
      cases i with
      | zero =>
        obtain ⟨later, hlater, hsame⟩ := hagain
        exact iff_of_false (by simp) fun hlast => isLastOfName_zero.mp hlast later hlater hsame
      | succ i => exact hsucc i
    · refine ⟨0 :: positions.map (· + 1), List.pairwise_cons.mpr ⟨by simp, hsorted'⟩, ?_, ?_⟩
      · intro i
        cases i with
        | zero =>
          refine iff_of_true List.mem_cons_self (isLastOfName_zero.mpr ?_)
          intro later hlater hsame
          exact hagain ⟨later, hlater, hsame⟩
        | succ i => exact (by simpa using hsucc i)
      · exact congrArg (some first :: ·) hmap'

end Given

/-- A header that was there is left if its name is not set, and of those that are set the last ones
are. -/
theorem headers_setHeaders (config : Config) (given : List (String × String)) :
    (config.setHeaders given).headers =
      config.headers.filter (fun header => ∀ later ∈ given, ¬ SameName header.1 later.1) ++
      lastOfNames given := by
  induction given generalizing config with
  | nil => simp [Config.setHeaders, lastOfNames]
  | cons first rest ih =>
    have hstep : config.setHeaders (first :: rest) =
        (config.setHeader first.1 first.2).setHeaders rest := rfl
    have hkept : ∀ header : String × String, (!sameIgnoringCase header.1.toList first.1.toList) =
        decide (¬ SameName header.1 first.1) := by
      intro header
      simp [SameName]
    rw [hstep, ih, Config.setHeader, List.filter_append, List.append_assoc, ← lastOfNames_cons,
      List.filter_filter]
    simp only [hkept, ← Bool.decide_and, List.forall_mem_cons, and_comm]

/-- Of the headers that are set, each name is left once, with the spelling and the value that it was
set with last, and they stand in the order in which they were set last. -/
theorem last_headers_kept (config : Config) (hnone : config.headers = [])
    (given : List (String × String)) :
    (config.setHeaders given).headers.Pairwise (fun a b => ¬ SameName a.1 b.1) ∧
    (∀ name, (∃ header ∈ (config.setHeaders given).headers, SameName header.1 name) ↔
      ∃ header ∈ given, SameName header.1 name) ∧
    ∃ positions : List Nat, positions.Pairwise (· < ·) ∧
    (∀ i, i ∈ positions ↔ IsLastOfName given i) ∧
      (config.setHeaders given).headers.map some = positions.map (given[·]?) := by
  have hheaders : (config.setHeaders given).headers = lastOfNames given := by
    rw [headers_setHeaders, hnone]
    rfl
  rw [hheaders]
  refine ⟨pairwise_lastOfNames given, ?_, lastOfNames_positions given⟩
  intro name
  constructor
  · rintro ⟨header, hheader, hsame⟩
    exact ⟨header, mem_of_mem_lastOfNames hheader, hsame⟩
  · rintro ⟨header, hheader, hsame⟩
    obtain ⟨last, hlast, hlater⟩ := exists_lastOfNames hheader
    exact ⟨last, hlast, hlater.symm.trans hsame⟩

def tokenHeaders : List (String × String) :=
  [("Authorization", "Bearer a"), ("X-Trace", "1"), ("AUTHORIZATION", "Bearer b"),
    ("Accept", "text"), ("authorization", "Bearer c"), ("x-trace", "2")]

theorem token_headers_kept :
    let config := Config.ofUrl "http://localhost/graphql"
    let headers := (config.setHeaders tokenHeaders).headers
    config.headers = [] ∧
      headers = [("Accept", "text"), ("authorization", "Bearer c"), ("x-trace", "2")] ∧
      headers.Pairwise (fun a b => ¬ SameName a.1 b.1) ∧
      (∃ header ∈ headers, SameName header.1 "X-TRACE") ∧
      ∃ positions : List Nat, (∀ i, i ∈ positions ↔ IsLastOfName tokenHeaders i) ∧
        headers.map some = positions.map (tokenHeaders[·]?) := by
  intro config headers
  have hgiven : ∃ header ∈ tokenHeaders, SameName header.1 "X-TRACE" := by decide +kernel
  obtain ⟨hunique, hmem, positions, -, hpositions, hmap⟩ :=
    last_headers_kept config rfl tokenHeaders
  exact ⟨rfl, by decide +kernel, hunique, (hmem "X-TRACE").mpr hgiven, positions, hpositions, hmap⟩

end GraphQLClient.Http
