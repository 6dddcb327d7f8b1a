import GraphQLClient.Proofs.CharacterClasses
import GraphQLClient.Text.Basic
import Mathlib.Data.List.TakeWhile

/-!
# Words and numerals

Trimming and cutting take blanks away and nothing else, and a numeral is read as the number it was
written for.
-/
namespace GraphQLClient.Text

variable {c : Char} {cs ds : List Char} {n : Nat}

theorem trimLeft_cons (hc : isBlank c = false) (rest : List Char) :
    trimLeft (c :: rest) = c :: rest :=
  List.dropWhile_cons_of_neg (by simp [hc])

/-- Nothing in front of a character that is not blank is trimmed from the right. -/
theorem trimRight_append (front : List Char) (hc : isBlank c = false) (back : List Char) :
    trimRight (front ++ c :: back) = front ++ c :: trimRight back := by
  have hkeep : (c :: front.reverse).dropWhile isBlank = c :: front.reverse :=
    List.dropWhile_cons_of_neg (by simp [hc])
  have hreverse : (front ++ c :: back).reverse = back.reverse ++ c :: front.reverse := by simp
  rw [trimRight, trimRight, hreverse, List.dropWhile_append]
  split_ifs with hblank
  · rw [List.isEmpty_iff.mp hblank, hkeep]
    simp
  · simp

theorem mem_trim (hc : isBlank c = false) (hmem : c ∈ cs) : c ∈ trim cs := by
  have hleft : c ∈ trimLeft cs := by
    rw [← List.takeWhile_append_dropWhile (p := isBlank) (l := cs)] at hmem
    rcases List.mem_append.mp hmem with hfront | hback
    · rw [List.mem_takeWhile_imp hfront] at hc
      cases hc
    · exact hback
  obtain ⟨front, back, hsplit⟩ := List.append_of_mem hleft
  rw [trim, hsplit, trimRight_append front hc]
  exact List.mem_append_right _ List.mem_cons_self

theorem trim_append {word : List Char} (hne : word ≠ []) (hblank : ∀ c ∈ word, isBlank c = false)
    (back : List Char) : trim (word ++ back) = word ++ trimRight back := by
  have hleft : trimLeft (word ++ back) = word ++ back := by
    obtain ⟨c, more, rfl⟩ := List.exists_cons_of_ne_nil hne
    exact trimLeft_cons (hblank c List.mem_cons_self) _
  obtain ⟨front, c, rfl⟩ := (List.eq_nil_or_concat word).resolve_left hne
  have hc : isBlank c = false := hblank c (by simp)
  rw [trim, hleft, List.concat_eq_append, List.append_assoc, List.append_assoc]
  exact trimRight_append front hc back

theorem getLast?_trim (h : (trim cs).getLast? = some c) : isBlank c = false := by
  rw [trim, trimRight, List.getLast?_reverse] at h
  have hfirst := List.head?_dropWhile_not isBlank (trimLeft cs).reverse
  rw [h] at hfirst
  simpa using hfirst

/-- A text that begins and ends with characters that are not blank is trimmed already. -/
theorem trim_eq_self (hfirst : isBlank c = false)
    (hlast : ∀ d ∈ (c :: cs).getLast?, isBlank d = false) :
    trim (c :: cs) = c :: cs := by
  rw [trim, trimLeft_cons hfirst]
  obtain ⟨front, d, hsplit⟩ :=
    (List.eq_nil_or_concat (c :: cs)).resolve_left (List.cons_ne_nil c cs)
  rw [List.concat_eq_append] at hsplit
  have hd : isBlank d = false := hlast d (by rw [hsplit, List.getLast?_concat]; rfl)
  rw [hsplit]
  exact trimRight_append front hd []

/-- Words are what is left of a text without its blank characters. -/
theorem flatten_wordsFrom (begun cs : List Char) :
    (wordsFrom begun cs).flatten = begun.reverse ++ cs.filter fun c => !isBlank c := by
  fun_induction wordsFrom begun cs with
  | case1 begun hempty => simp [List.isEmpty_iff.mp hempty]
  | case2 begun hne => simp
  | case3 begun c rest hc hempty ih => simp [ih, hc, List.isEmpty_iff.mp hempty]
  | case4 begun c rest hc hne ih => simp [ih, hc]
  | case5 begun c rest hc ih => simp [ih, hc]

theorem nil_not_mem_wordsFrom (begun cs : List Char) : [] ∉ wordsFrom begun cs := by
  fun_induction wordsFrom begun cs with
  | case1 begun hempty => simp
  | case2 begun hne => simpa using hne
  | case3 begun c rest hc hempty ih => exact ih
  | case4 begun c rest hc hne ih => simpa [ih] using hne
  | case5 begun c rest hc ih => exact ih

theorem mem_words {word : List Char} (h : word ∈ words cs) :
    word ≠ [] ∧ ∀ c ∈ word, c ∈ cs ∧ isBlank c = false := by
  constructor
  · rintro rfl
    exact nil_not_mem_wordsFrom [] cs h
  intro c hc
  have hflat : c ∈ (words cs).flatten := List.mem_flatten.mpr ⟨word, h, hc⟩
  rw [words, flatten_wordsFrom] at hflat
  simpa using hflat

theorem hexDigit?_toLower (c : Char) : hexDigit? c.toLower = hexDigit? c := by
  by_cases hupper : c.isUpper = true
  · have hall : ∀ n < 26,
        hexDigit? (Char.ofNat (65 + n)).toLower = hexDigit? (Char.ofNat (65 + n)) := by
      decide
    have hcode := (isUpper_iff c).mp hupper
    have hc := hall (c.toNat - 65) (by omega)
    rwa [Nat.add_sub_cancel' hcode.1, Char.ofNat_toNat] at hc
  · have hsame : c.toLower = c := dif_neg (mt decide_eq_true_iff.mpr hupper)
    rw [hsame]

theorem digit?_toLower (radix : Nat) (c : Char) : digit? radix c.toLower = digit? radix c := by
  rw [digit?, hexDigit?_toLower, digit?]

theorem numeral?_none {radix limit : Nat} (hplus : c ≠ '+') (hc : digit? radix c = none)
    (rest : List Char) : numeral? radix limit (c :: rest) = none := by
  unfold numeral?
  split
  · rename_i heq
    exact absurd (List.cons.inj heq).1 hplus
  · simp [digitsValue?, hc]

@[simp] theorem digitsValue?_append (radix value : Nat) (ds es : List Char) :
    digitsValue? radix value (ds ++ es) =
      (digitsValue? radix value ds).bind fun front => digitsValue? radix front es := by
  induction ds generalizing value with
  | nil => rfl
  | cons c ds ih =>
    simp only [List.cons_append, digitsValue?]
    cases digit? radix c with
    | none => rfl
    | some digit => exact ih _

theorem digitsValue?_zeros (count : Nat) (ds : List Char) :
    digitsValue? 16 0 (List.replicate count '0' ++ ds) = digitsValue? 16 0 ds := by
  induction count with
  | zero => rfl
  | succ count ih => exact ih

theorem digit?_digitChar {radix : Nat} (hradix : radix ≤ 16) (h : n < radix) :
    digit? radix (Nat.digitChar n) = some n := by
  have hall : ∀ n < 16, hexDigit? (Nat.digitChar n) = some n := by decide
  rw [digit?, hall n (by omega), Option.filter_some, if_pos (decide_eq_true h)]

theorem digitsValue?_digitsOf {radix : Nat} (htwo : 1 < radix) (hradix : radix ≤ 16) (n : Nat) :
    digitsValue? radix 0 (digitsOf radix n) = some n := by
  induction n using Nat.strongRecOn with
  | _ n ih =>
    rw [digitsOf, Nat.toDigits_eq_if htwo]
    split_ifs with hsmall
    · simp [digitsValue?, digit?_digitChar hradix hsmall]
    · have hless : n / radix < n := Nat.div_lt_self (by omega) htwo
      have hlast : n / radix * radix + n % radix = n := Nat.div_add_mod' n radix
      have hfront := ih (n / radix) hless
      rw [digitsOf] at hfront
      rw [digitsValue?_append, hfront]
      simp [digitsValue?, digit?_digitChar hradix (Nat.mod_lt n (by omega)), hlast]

theorem digitsValue?_toLower (radix value : Nat) (ds : List Char) :
    digitsValue? radix value (ds.map Char.toLower) = digitsValue? radix value ds := by
  induction ds generalizing value with
  | nil => rfl
  | cons c ds ih => simp only [List.map_cons, digitsValue?, digit?_toLower, ih]

theorem digit?_of_digitsValue? {radix value : Nat} (h : digitsValue? radix value ds = some n)
    (hc : c ∈ ds) : ∃ digit, digit? radix c = some digit := by
  induction ds generalizing value with
  | nil => cases hc
  | cons d ds ih =>
    obtain ⟨digit, hdigit, hrest⟩ := Option.bind_eq_some_iff.mp h
    rcases List.mem_cons.mp hc with rfl | hc
    · exact ⟨digit, hdigit⟩
    · exact ih hrest hc

/-- Digits are characters of names, so they are no signs, no blanks and no marks. -/
theorem isNameChar_of_digit? {radix : Nat} (h : digit? radix c = some n) : isNameChar c = true := by
  obtain ⟨hdigit, -⟩ := Option.filter_eq_some_iff.mp h
  rw [isNameChar_iff, isNameStart_iff, isDigit_iff]
  unfold hexDigit? at hdigit
  split_ifs at hdigit with hdecimal hlower hupper
  · exact Or.inr hdecimal
  · have hlow : 97 ≤ c.toNat ∧ c.toNat ≤ 102 := hlower
    omega
  · have hhigh : 65 ≤ c.toNat ∧ c.toNat ≤ 70 := hupper
    omega

theorem numeral?_eq_some {radix limit : Nat} (hne : ds ≠ []) (hplus : '+' ∉ ds)
    (hvalue : digitsValue? radix 0 ds = some n) (hlimit : n ≤ limit) :
    numeral? radix limit ds = some n := by
  cases ds with
  | nil => exact absurd rfl hne
  | cons c ds =>
    have hc : c ≠ '+' := fun h => hplus (h ▸ List.mem_cons_self)
    unfold numeral?
    split
    · rename_i heq
      exact absurd (List.cons.inj heq).1 hc
    · simp [hvalue, hlimit]

theorem not_mem_digitsOf {radix : Nat} (htwo : 1 < radix) (hradix : radix ≤ 16)
    (hc : isNameChar c = false) :
    c ∉ digitsOf radix n := by
  intro hmem
  obtain ⟨digit, hdigit⟩ := digit?_of_digitsValue? (digitsValue?_digitsOf htwo hradix n) hmem
  rw [isNameChar_of_digit? hdigit] at hc
  cases hc

theorem numeral?_digitsOf {radix limit : Nat} (htwo : 1 < radix) (hradix : radix ≤ 16)
    (hlimit : n ≤ limit) :
    numeral? radix limit (digitsOf radix n) = some n :=
  numeral?_eq_some Nat.toDigits_ne_nil (not_mem_digitsOf htwo hradix (by decide))
    (digitsValue?_digitsOf htwo hradix n) hlimit

theorem le_of_numeral? {radix limit : Nat} (h : numeral? radix limit cs = some n) : n ≤ limit := by
  simp only [numeral?, Option.ite_none_left_eq_some] at h
  simpa using (Option.filter_eq_some_iff.mp h.2).2

end GraphQLClient.Text
