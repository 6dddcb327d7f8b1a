import GraphQLClient.Document.Reader
import GraphQLClient.Proofs.LiteralUnambiguity

/-!
# Printed tokens read back

A server reads a printed number, text or name as what it was printed from, and stops at its end.
-/
namespace GraphQLClient

namespace Json

variable {ds cs rest : List Char}

def NoDigit (rest : List Char) : Prop := ∀ c more, rest = c :: more → c.isDigit = false

theorem noDigit_cons {c : Char} {more : List Char} (h : c.isDigit = false) :
    NoDigit (c :: more) := by
  rintro d tail ⟨⟩
  exact h

theorem noDigit_delimited (h : Delimited rest) : NoDigit rest := by
  obtain ⟨c, more, rfl, hc⟩ := h.cases (P := fun c => c.isDigit = false) (by decide)
  exact noDigit_cons hc

theorem readDigits_append (hds : Digits ds) (hne : ds ≠ []) (hrest : NoDigit rest) :
    readDigits (ds ++ rest) = .ok (ds, rest) := by
  have hstop : rest.takeWhile Char.isDigit = [] ∧ rest.dropWhile Char.isDigit = rest := by
    cases rest with
    | nil => exact ⟨rfl, rfl⟩
    | cons c more => simp [hrest c more rfl]
  have htake : (ds ++ rest).takeWhile Char.isDigit = ds := by
    rw [List.takeWhile_append_of_pos hds, hstop.1, List.append_nil]
  have hdrop : (ds ++ rest).dropWhile Char.isDigit = rest := by
    rw [List.dropWhile_append_of_pos hds, hstop.2]
  cases ds with
  | nil => exact absurd rfl hne
  | cons d more => simp only [readDigits, htake, hdrop]

theorem readWhole_append {t : NumberText} (ht : t.Written) (hleads : t.Leads)
    (hrest : NoDigit rest) :
    readWhole (t.whole ++ rest) = .ok (t.whole, rest) := by
  obtain ⟨hdigits, hne⟩ := ht.whole
  rcases hleads with hzero | hlead
  · rw [hzero]
    cases rest with
    | nil => rfl
    | cons c more => simp [readWhole, hrest c more rfl]
  · rw [← readDigits_append hdigits hne hrest]
    cases hwhole : t.whole with
    | nil => exact absurd hwhole hne
    | cons d more =>
      unfold readWhole
      split
      · rename_i heq
        exact absurd (hwhole.trans (congrArg (· :: more) (List.cons.inj heq).1)) (hlead more)
      · rfl

/-- What stands behind the whole part of a number. -/
theorem noDigit_fractionText (t : NumberText) (hrest : NoDigit rest) :
    NoDigit (t.fractionText ++ (t.exponentText ++ rest)) := by
  unfold NumberText.fractionText NumberText.exponentText
  cases t.fraction with
  | some fs => exact noDigit_cons (by decide)
  | none =>
    cases t.exponent with
    | some e => exact noDigit_cons (by decide)
    | none => exact hrest

theorem exponentText_cases (t : NumberText) (hrest : Delimited rest) {P : Char → Prop}
    [DecidablePred P] (hall : (['e', ',', ')', ']', '}'].all fun c => decide (P c)) = true) :
    ∃ c more, t.exponentText ++ rest = c :: more ∧ P c := by
  have hmarks := forall_mem_of_all hall
  unfold NumberText.exponentText
  cases t.exponent with
  | some e => exact ⟨'e', _, rfl, hmarks 'e' List.mem_cons_self⟩
  | none =>
    obtain ⟨c, more, rfl, hc⟩ := hrest
    exact ⟨c, more, rfl, hmarks c (List.mem_cons_of_mem _ hc)⟩

theorem readFraction_append {t : NumberText} (ht : t.Written) (hrest : Delimited rest) :
    readFraction (t.fractionText ++ (t.exponentText ++ rest)) =
      .ok (t.fraction, t.exponentText ++ rest) := by
  obtain ⟨c, more, hbehind, hdigit, hpoint⟩ :=
    exponentText_cases t hrest (P := fun c => c.isDigit = false ∧ c ≠ '.') (by decide)
  rw [hbehind]
  unfold NumberText.fractionText
  cases hfraction : t.fraction with
  | some fs =>
    obtain ⟨hfs, hne⟩ := ht.fraction fs hfraction
    have hread : readDigits (fs ++ c :: more) = .ok (fs, c :: more) :=
      readDigits_append hfs hne (noDigit_cons hdigit)
    simp [readFraction, hread, bind, Except.bind, pure, Except.pure]
  | none =>
    rw [List.nil_append]
    unfold readFraction
    split
    · rename_i heq
      exact absurd (List.cons.inj heq).1 hpoint
    · rfl

theorem readExponent_append {t : NumberText} (ht : t.Written) (hrest : Delimited rest) :
    readExponent (t.exponentText ++ rest) = .ok (t.exponent, rest) := by
  unfold NumberText.exponentText
  cases hexponent : t.exponent with
  | some e =>
    obtain ⟨negative, es⟩ := e
    obtain ⟨hes, hne⟩ := ht.exponent _ hexponent
    have hread := readDigits_append hes hne (noDigit_delimited hrest)
    cases negative with
    | true =>
      simp [SelectionText.exponentPart, readExponent, hread, bind, Except.bind, pure, Except.pure]
    | false =>
      simp [SelectionText.exponentPart, readExponent, hread, bind, Except.bind, pure, Except.pure]
  | none =>
    obtain ⟨c, more, rfl, hc⟩ := hrest.cases (P := fun c => ¬ (c = 'e' ∨ c = 'E')) (by decide)
    simp only [List.nil_append, readExponent, if_neg hc]

def NumberText.print (t : NumberText) : List Char :=
  if t.negative then '-' :: t.unsigned else t.unsigned

theorem unsigned_head {t : NumberText} (ht : t.Written) :
    ∃ c more, t.unsigned = c :: more ∧ c.isDigit = true := by
  obtain ⟨hdigits, hne⟩ := ht.whole
  unfold NumberText.unsigned
  cases hwhole : t.whole with
  | nil => exact absurd hwhole hne
  | cons c more => exact ⟨c, _, rfl, hdigits c (hwhole ▸ List.mem_cons_self)⟩

theorem readNumberText_digit {c : Char} {more : List Char} (hc : c.isDigit = true) :
    readNumberText (c :: more) = (do
      let (whole, rest) ← readWhole (c :: more)
      let (fraction, rest) ← readFraction rest
      let (exponent, rest) ← readExponent rest
      return (⟨false, whole, fraction, exponent⟩, rest)) := by
  have hminus : c ≠ '-' := by
    rintro rfl
    cases hc
  simp only [readNumberText]
  split
  · rename_i heq
    exact absurd (List.cons.inj heq).1 hminus
  · rfl

theorem readNumberText_print {t : NumberText} (ht : t.Written) (hleads : t.Leads)
    (hrest : Delimited rest) : readNumberText (t.print ++ rest) = .ok (t, rest) := by
  have hwhole := readWhole_append ht hleads (noDigit_fractionText t (noDigit_delimited hrest))
  have hfraction := readFraction_append ht hrest
  have hexponent := readExponent_append ht hrest
  have htext : t.unsigned ++ rest = t.whole ++ (t.fractionText ++ (t.exponentText ++ rest)) := by
    simp [NumberText.unsigned]
  cases hnegative : t.negative with
  | true =>
    simp only [NumberText.print, hnegative, if_true, List.cons_append,
      readNumberText, htext, hwhole, hfraction, hexponent, bind, Except.bind, pure, Except.pure]
    rw [← hnegative]
  | false =>
    obtain ⟨c, more, hhead, hc⟩ := unsigned_head ht
    have hcons : c :: (more ++ rest) = t.unsigned ++ rest := by rw [hhead, List.cons_append]
    rw [NumberText.print, hnegative, if_neg Bool.false_ne_true, ← hcons,
      readNumberText_digit hc, hcons, htext]
    simp only [hwhole, hfraction, hexponent, bind, Except.bind, pure, Except.pure]
    rw [← hnegative]

/-- A number other than zero does not begin with the digit zero. -/
theorem toDigits_leads {n : Nat} (hn : n ≠ 0) (more : List Char) :
    Nat.toDigits 10 n ≠ '0' :: more := by
  induction n using Nat.strongRecOn generalizing more with
  | _ n ih =>
    by_cases hsmall : n < 10
    · have hall : ∀ k < 10, k ≠ 0 → Nat.digitChar k ≠ '0' := by decide
      rw [Nat.toDigits_of_lt_base hsmall]
      intro heq
      exact hall n hsmall hn (List.cons.inj heq).1
    · rw [Nat.toDigits_of_base_le (by decide) (by omega)]
      cases hfront : Nat.toDigits 10 (n / 10) with
      | nil => exact absurd hfront Nat.toDigits_ne_nil
      | cons c tail =>
        intro heq
        have hc : c = '0' := (List.cons.inj heq).1
        exact ih (n / 10) (by omega) (by omega) tail (hc ▸ hfront)

theorem numberOf?_decimal {t : NumberText} (h : t.fraction.isSome ∨ t.exponent.isSome) :
    Document.numberOf? t =
      (Binary64.ofDecimal? t.negative (Nat.ofDigitChars 10 t.digits 0) t.power).map .float := by
  obtain ⟨negative, whole, fraction, exponent⟩ := t
  rw [← digitsNumber_eq]
  cases fraction with
  | some fs => rfl
  | none =>
    cases exponent with
    | some e => rfl
    | none => simp at h

/-- Every printed number is the text of a number as a server reads them. -/
theorem exists_numberText (n : JsonNumber) :
    ∃ t : NumberText, t.Written ∧ t.Leads ∧ printNumber n = t.print ∧
      Document.numberOf? t = some n := by
  cases n with
  | int n =>
    refine ⟨⟨n < 0, Nat.toDigits 10 n.natAbs, none, none⟩,
      ⟨⟨digits_toDigits _, Nat.toDigits_ne_nil⟩, nofun, nofun⟩, ?_, ?_, ?_⟩
    · by_cases hzero : n.natAbs = 0
      · exact Or.inl (by rw [hzero]; rfl)
      · exact Or.inr (toDigits_leads hzero)
    · simp [printNumber, printInt, NumberText.print, NumberText.unsigned, NumberText.fractionText,
        NumberText.exponentText, Text.digitsOf]
    · have hvalue : digitsNumber (Nat.toDigits 10 n.natAbs) = n.natAbs := by
        rw [digitsNumber_eq, Nat.ofDigitChars_ten_toDigits]
      simp only [Document.numberOf?, hvalue, decide_eq_true_eq, Option.some.injEq,
        JsonNumber.int.injEq]
      split_ifs
      · omega
      · omega
  | float x =>
    cases hzero : x.isZero with
    | true =>
      have hplaces := zero_places x.negative
      have hsignificand : x.significand = 0 := by simpa [Binary64.isZero] using hzero
      refine ⟨_, hplaces.written, Or.inl rfl, ?_, ?_⟩
      · simp [printNumber, printFloat, hzero, NumberText.print, NumberText.unsigned,
          NumberText.fractionText, NumberText.exponentText]
      · rw [numberOf?_decimal hplaces.decimal, hplaces.value, Binary64.eq_zero x hsignificand]
        rfl
    | false =>
      have hnames := Decimal.shortest_names hzero
      have hdigits : (Decimal.shortest x).digits ≠ 0 := by
        intro hnone
        rw [Decimal.Names, hnone] at hnames
        have hx : x = Binary64.zero x.negative := by simpa [Binary64.ofDecimal?] using hnames.symm
        rw [hx] at hzero
        cases hzero
      obtain ⟨t, hnegative, hplaces, htext⟩ := layoutDecimal_places x.negative
        (digits_toDigits (Decimal.shortest x).digits) Nat.toDigits_ne_nil
        ((Nat.toDigits 10 (Decimal.shortest x).digits).length + (Decimal.shortest x).exponent)
      refine ⟨t, hplaces.written, hplaces.leads (toDigits_leads hdigits), ?_, ?_⟩
      · simp only [printNumber, printFloat, hzero, NumberText.print, hnegative, htext]
        rfl
      · rw [numberOf?_decimal hplaces.decimal, hplaces.value, hnegative, add_sub_cancel_left,
          Nat.ofDigitChars_ten_toDigits, hnames]
        rfl

theorem readString_plain {c : Char} (hquote : c ≠ '"') (hslash : c ≠ '\\') (hlow : ¬ c.toNat < 0x20)
    (tail : List Char) :
    readString (c :: tail) = (do
      let (cs, left) ← readString tail
      return (c :: cs, left)) := by
  rw [readString.eq_def (c :: tail)]
  split
  · cases ‹c :: tail = []›
  · rename_i heq
    exact absurd (List.cons.inj heq).1 hquote
  · rename_i heq
    exact absurd (List.cons.inj heq).1 hslash
  · rename_i heq
    exact absurd (List.cons.inj heq).1 hslash
  · rename_i heq
    exact absurd (List.cons.inj heq).1 hslash
  · rename_i heq
    obtain ⟨rfl, rfl⟩ := List.cons.inj heq
    exact if_neg hlow

/-- Every character comes back from its escape. -/
theorem readString_escapeChar (c : Char) (tail : List Char) :
    readString (escapeChar c ++ tail) = (do
      let (cs, left) ← readString tail
      return (c :: cs, left)) := by
  by_cases hquote : c = '"'
  · subst hquote; rfl
  by_cases hslash : c = '\\'
  · subst hslash; rfl
  by_cases hback : c = '\x08'
  · subst hback; rfl
  by_cases hfeed : c = '\x0c'
  · subst hfeed; rfl
  by_cases hnewline : c = '\n'
  · subst hnewline; rfl
  by_cases hreturn : c = '\r'
  · subst hreturn; rfl
  by_cases htab : c = '\t'
  · subst htab; rfl
  simp only [escapeChar, hquote, hslash, hback, hfeed, hnewline, hreturn, htab, if_false]
  split_ifs with hlow
  · have hall : ∀ n < 0x20, codeUnit? '0' '0' (Nat.digitChar (n / 16)) (Nat.digitChar (n % 16)) =
        some n ∧ isHighSurrogate n = false ∧ isLowSurrogate n = false := by decide
    obtain ⟨hunit, hhigh, hlow'⟩ := hall c.toNat hlow
    simp only [List.cons_append, List.nil_append, readString, readCodeUnit, hunit,
      hhigh, hlow', bind, Except.bind, Char.ofNat_toNat]
    rfl
  · exact readString_plain hquote hslash hlow tail

theorem readString_escaped (cs rest : List Char) :
    readString (cs.flatMap escapeChar ++ '"' :: rest) = .ok (cs, rest) := by
  induction cs with
  | nil => rfl
  | cons c cs ih =>
    rw [List.flatMap_cons, List.append_assoc, readString_escapeChar, ih]
    rfl

end Json

namespace Document

variable {cs rest : List Char}

theorem readNumber?_printNumber (n : JsonNumber) (hrest : Delimited rest) :
    readNumber? (Json.printNumber n ++ rest) = some (n, rest) := by
  obtain ⟨t, ht, hleads, htext, hvalue⟩ := Json.exists_numberText n
  have hread := Json.readNumberText_print ht hleads hrest
  obtain ⟨c, more, rfl, hc⟩ :=
    hrest.cases (P := fun c => ¬ (c = '.' ∨ Text.isNameChar c)) (by decide)
  simp only [readNumber?, htext, hread, if_neg hc, hvalue, Option.map_some]

/-- A text that is not empty does not begin like a block string, as quotes in it are escaped. -/
theorem readText?_escaped (cs : List Char) (hrest : Delimited rest) :
    readText? (cs.flatMap Json.escapeChar ++ '"' :: rest) = some (String.ofList cs, rest) := by
  have hblock : ∀ more, cs.flatMap Json.escapeChar ++ '"' :: rest ≠ '"' :: '"' :: more := by
    intro more
    cases cs with
    | nil =>
      obtain ⟨c, tail, rfl, hc⟩ := hrest.cases (P := (· ≠ '"')) (by decide)
      rintro ⟨⟩
      exact hc rfl
    | cons c cs =>
      rw [List.flatMap_cons, List.append_assoc]
      exact Json.escapeChar_ne_quote c
  have hread := Json.readString_escaped cs rest
  unfold readText?
  split
  · rename_i more heq
    exact absurd heq (hblock more)
  · rw [hread]

/-- A name ends in front of the first character that does not go on with it. -/
theorem readName?_stop {name : List Char} (hname : Text.isNameList name) {c : Char}
    (hc : Text.isNameChar c = false) (more : List Char) :
    readName? (name ++ c :: more) = some (String.ofList name, c :: more) := by
  have hall := Text.isNameChar_of_isNameList hname
  have htake : (name ++ c :: more).takeWhile Text.isNameChar = name := by
    rw [List.takeWhile_append_of_pos hall, List.takeWhile_cons_of_neg (by simp [hc]),
      List.append_nil]
  have hdrop : (name ++ c :: more).dropWhile Text.isNameChar = c :: more := by
    rw [List.dropWhile_append_of_pos hall, List.dropWhile_cons_of_neg (by simp [hc])]
  simp only [readName?, htake, hname, if_true, hdrop]

theorem readName?_append {name : List Char} (hname : Text.isNameList name) (hrest : EndsName rest) :
    readName? (name ++ rest) = some (String.ofList name, rest) := by
  obtain ⟨c, more, rfl, -⟩ := id hrest
  exact readName?_stop hname (hrest.not_isNameChar c more rfl) more

theorem readName?_toList {name : String} (hname : Text.isName name = true) (hrest : EndsName rest) :
    readName? (name.toList ++ rest) = some (name, rest) := by
  rw [readName?_append hname hrest, String.ofList_toList]

theorem readName?_none {c : Char} (hc : Text.isNameStart c = false) (more : List Char) :
    readName? (c :: more) = none := by
  have hnot : Text.isNameList ((c :: more).takeWhile Text.isNameChar) = false := by
    rw [List.takeWhile_cons]
    split_ifs
    · simp [Text.isNameList, hc]
    · rfl
  simp only [readName?, hnot, Bool.false_eq_true, if_false]

end Document
end GraphQLClient
