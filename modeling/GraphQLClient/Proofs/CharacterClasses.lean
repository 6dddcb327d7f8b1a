import GraphQLClient.Document.Printer
import GraphQLClient.Selection.Reader

/-!
# Character classes

The classes of characters by code point, and what may stand behind a value.
-/
namespace GraphQLClient

theorem isDigit_iff (c : Char) : c.isDigit = true ↔ 48 ≤ c.toNat ∧ c.toNat ≤ 57 :=
  Char.isDigit_iff_toNat

theorem isUpper_iff (c : Char) : c.isUpper = true ↔ 65 ≤ c.toNat ∧ c.toNat ≤ 90 :=
  decide_eq_true_iff

theorem isLower_iff (c : Char) : c.isLower = true ↔ 97 ≤ c.toNat ∧ c.toNat ≤ 122 := by
  refine (Bool.and_eq_true_iff).trans (and_congr ?_ ?_)
  · exact decide_eq_true_iff
  · exact decide_eq_true_iff

theorem isAlpha_iff (c : Char) : c.isAlpha = true ↔
    (65 ≤ c.toNat ∧ c.toNat ≤ 90) ∨ (97 ≤ c.toNat ∧ c.toNat ≤ 122) := by
  rw [← isUpper_iff, ← isLower_iff]
  exact Bool.or_eq_true_iff

theorem eq_iff_toNat (c d : Char) : c = d ↔ c.toNat = d.toNat := Char.toNat_inj.symm

-- A check of the listed characters only: `decide` on the `∀` itself may run through all of `Char`.
theorem forall_mem_of_all {P : Char → Prop} [DecidablePred P] {cs : List Char}
    (h : (cs.all fun c => decide (P c)) = true) : ∀ c ∈ cs, P c := by
  intro c hc
  exact of_decide_eq_true (List.all_eq_true.mp h c hc)

/-- A character of a class is none of those that the class leaves out. -/
theorem not_mem_of_class {p : Char → Bool} {c : Char} {cs : List Char} (hc : p c = true)
    (hnone : (cs.all fun d => decide (p d = false)) = true) : c ∉ cs := by
  intro hmem
  rw [forall_mem_of_all hnone c hmem] at hc
  cases hc

namespace Text

variable {c : Char}

theorem isNameStart_iff (c : Char) : isNameStart c = true ↔
    (65 ≤ c.toNat ∧ c.toNat ≤ 90) ∨ (97 ≤ c.toNat ∧ c.toNat ≤ 122) ∨ c.toNat = 95 := by
  simp only [isNameStart, Bool.or_eq_true, isAlpha_iff, beq_iff_eq, or_assoc, eq_iff_toNat]
  exact Iff.rfl

theorem isNameChar_iff (c : Char) :
    isNameChar c = true ↔ isNameStart c = true ∨ c.isDigit = true := by
  simp only [isNameChar, isNameStart, Char.isAlphanum, Bool.or_eq_true]
  constructor
  · rintro ((halpha | hdigit) | hlow)
    · exact Or.inl (Or.inl halpha)
    · exact Or.inr hdigit
    · exact Or.inl (Or.inr hlow)
  · rintro ((halpha | hlow) | hdigit)
    · exact Or.inl (Or.inl halpha)
    · exact Or.inr hlow
    · exact Or.inl (Or.inr hdigit)

theorem isNameChar_of_isNameStart (h : isNameStart c = true) : isNameChar c = true :=
  (isNameChar_iff c).mpr (Or.inl h)

theorem isNameList_eq_true {cs : List Char} (h : isNameList cs = true) :
    ∃ first rest, cs = first :: rest ∧ isNameStart first = true ∧
    ∀ c ∈ cs, isNameChar c = true := by
  cases cs with
  | nil => cases h
  | cons first rest =>
    simp only [isNameList, Bool.and_eq_true, List.all_eq_true] at h
    refine ⟨first, rest, rfl, h.1, ?_⟩
    rintro c (_ | ⟨_, hc⟩)
    · exact isNameChar_of_isNameStart h.1
    · exact h.2 c hc

theorem isNameChar_of_isNameList {cs : List Char} (h : isNameList cs = true) :
    ∀ c ∈ cs, isNameChar c = true := by
  obtain ⟨_, _, _, _, hall⟩ := isNameList_eq_true h
  exact hall

theorem not_isBlank_of_isNameChar (h : isNameChar c = true) : isBlank c = false := by
  rw [isNameChar_iff, isNameStart_iff, isDigit_iff] at h
  simp only [isBlank, Bool.or_eq_false_iff, Bool.and_eq_false_iff, decide_eq_false_iff_not,
    beq_eq_false_iff_ne]
  omega

end Text

namespace SelectionText

open Text

variable {c : Char}

theorem isLetterStart_of_isNameStart (h : isNameStart c = true) : isLetterStart c = true := by
  simp [isLetterStart, h]

theorem isLetter_of_isNameChar (h : isNameChar c = true) : isLetter c = true := by
  simp [isLetter, h]

theorem not_isLetterStart_of_isDigit (h : c.isDigit = true) : isLetterStart c = false := by
  rw [isDigit_iff] at h
  have hstart : ¬ isNameStart c = true := by
    rw [isNameStart_iff]
    omega
  have hascii : ¬ 0x80 ≤ c.toNat := by omega
  simp [isLetterStart, hstart, hascii]

end SelectionText

theorem Document.isVariable_eq_true {cs : List Char} (h : isVariable cs = true) :
    cs = '$' :: cs.tail ∧ Text.isNameList cs.tail = true := by
  unfold isVariable at h
  split at h
  · exact ⟨rfl, h⟩
  · cases h

/-- What stands behind a value begins with a mark that ends it. -/
def Delimited (rest : List Char) : Prop := ∃ c more, rest = c :: more ∧ c ∈ [',', ')', ']', '}']

def EndsName (rest : List Char) : Prop :=
  ∃ c more, rest = c :: more ∧ c ∈ [',', ')', ']', '}', ':', '(', ' ', '\n']

theorem Delimited.cases {P : Char → Prop} [DecidablePred P] {rest : List Char} (h : Delimited rest)
    (hall : ([',', ')', ']', '}'].all fun c => decide (P c)) = true) :
    ∃ c more, rest = c :: more ∧ P c := by
  obtain ⟨c, more, rfl, hc⟩ := h
  exact ⟨c, more, rfl, forall_mem_of_all hall c hc⟩

theorem delimited_cons {c : Char} {more : List Char} (hc : c ∈ [',', ')', ']', '}']) :
    Delimited (c :: more) :=
  ⟨c, more, rfl, hc⟩

theorem endsName_cons {c : Char} {more : List Char}
    (hc : c ∈ [',', ')', ']', '}', ':', '(', ' ', '\n']) : EndsName (c :: more) :=
  ⟨c, more, rfl, hc⟩

theorem Delimited.endsName {rest : List Char} (h : Delimited rest) : EndsName rest := by
  obtain ⟨c, more, rfl, hc⟩ :=
    h.cases (P := (· ∈ [',', ')', ']', '}', ':', '(', ' ', '\n'])) (by decide)
  exact ⟨c, more, rfl, hc⟩

theorem EndsName.not_isNameChar {rest : List Char} (h : EndsName rest) :
    ∀ c more, rest = c :: more → Text.isNameChar c = false := by
  obtain ⟨c, more, rfl, hc⟩ := h
  have hall : ∀ c ∈ [',', ')', ']', '}', ':', '(', ' ', '\n'], Text.isNameChar c = false :=
    forall_mem_of_all (by decide)
  rintro d tail ⟨⟩
  exact hall c hc

end GraphQLClient
