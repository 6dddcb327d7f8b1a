import GraphQLClient.Json.Printer
import GraphQLClient.Json.Reader
import GraphQLClient.Proofs.CharacterClasses
import GraphQLClient.Proofs.ShortestDecimals

/-!
# Printed numbers read back

A number that is printed in a document is one token, after its sign: an integer is read as an
integer and a float as the same float.
-/
namespace GraphQLClient

def Digits (ds : List Char) : Prop := ∀ c ∈ ds, c.isDigit = true

theorem digits_toDigits (n : Nat) : Digits (Nat.toDigits 10 n) :=
  fun _ hc => Nat.isDigit_of_mem_toDigits (by decide) (by decide) hc

theorem Digits.append {ds es : List Char} (hd : Digits ds) (he : Digits es) :
    Digits (ds ++ es) := by
  intro c hc
  rcases List.mem_append.mp hc with hc | hc
  · exact hd c hc
  · exact he c hc

theorem digits_zeros (n : Nat) : Digits (List.replicate n '0') := by
  intro c hc
  rw [List.eq_of_mem_replicate hc]
  rfl

namespace SelectionText

variable {c : Char} {ds ws fs es rest tail : List Char}

theorem digit?_ten (hc : c.isDigit = true) : Text.digit? 10 c = some (c.toNat - '0'.toNat) := by
  have hbounds := (isDigit_iff c).mp hc
  have hle : '0' ≤ c ∧ c ≤ '9' := hbounds
  have hlt : c.toNat - '0'.toNat < 10 := by
    change c.toNat - 48 < 10
    omega
  simp only [Text.digit?, Text.hexDigit?, if_pos hle, Option.filter_some, hlt, decide_true, if_true]

theorem ne_of_isDigit (hc : c.isDigit = true) {d : Char} (hd : d.isDigit = false) : c ≠ d := by
  rintro rfl
  simp [hc] at hd

def Stops : List Char → Prop
  | [] => True
  | c :: _ => c ≠ '_' ∧ Text.digit? 10 c = none

theorem readDigits_stop (hs : Stops rest) (n count : Nat) :
    readDigits 10 n count rest = (n, count, rest) := by
  cases rest with
  | nil => rfl
  | cons c more =>
    obtain ⟨hne, hnone⟩ := hs
    simp only [readDigits, if_neg hne, hnone]

theorem readDigits_digits (hds : Digits ds) (hs : Stops rest) (n count : Nat) :
    readDigits 10 n count (ds ++ rest) =
      (Nat.ofDigitChars 10 ds n, count + ds.length, rest) := by
  induction ds generalizing n count with
  | nil => simpa using readDigits_stop hs n count
  | cons c more ih =>
    have hc : c.isDigit = true := hds c List.mem_cons_self
    have hne : c ≠ '_' := ne_of_isDigit hc rfl
    have hmore := ih (fun d hd => hds d (List.mem_cons_of_mem _ hd))
      (n * 10 + (c.toNat - '0'.toNat)) (count + 1)
    rw [List.cons_append, readDigits, if_neg hne, digit?_ten hc]
    refine hmore.trans ?_
    rw [Nat.ofDigitChars_cons, Nat.mul_comm n, List.length_cons, Nat.add_assoc, Nat.add_comm 1]

theorem stops_delimited (h : Delimited rest) : Stops rest := by
  obtain ⟨c, more, rfl, hc⟩ := h.cases (P := fun c => c ≠ '_' ∧ Text.digit? 10 c = none) (by decide)
  exact hc

theorem stops_cons {more : List Char} (h : c ≠ '_' ∧ Text.digit? 10 c = none) : Stops (c :: more) :=
  h

/-- No letters of a type name and no exponent stand in front of it. -/
theorem endNumber_delimited (h : Delimited rest) (n : Nat) (exponent : Option ℤ) :
    endNumber n exponent rest = match exponent with
      | none => some (.int n, rest)
      | some e => (Binary64.ofDecimal? false n e).map fun x => (.float x, rest) := by
  obtain ⟨c, more, rfl, hne, hletter⟩ :=
    h.cases (P := fun c => c ≠ 'f' ∧ isLetter c = false) (by decide)
  have hleft : (c :: more).dropWhile isLetter = c :: more := by
    rw [List.dropWhile_cons_of_neg (by simp [hletter])]
  have hsuffix : ("f32".toList.isPrefixOf (c :: more) || "f64".toList.isPrefixOf (c :: more)) =
      false := by
    simp [List.isPrefixOf, Ne.symm hne]
  cases exponent with
  | none => simp only [endNumber, hsuffix, hleft]
  | some e => simp only [endNumber, hleft, Option.getD_some]

theorem readFraction?_digits (hfs : Digits fs) (hne : fs ≠ []) :
    readFraction? ('.' :: fs ++ rest) = some (fs ++ rest) := by
  cases fs with
  | nil => exact absurd rfl hne
  | cons c more =>
    have hc : c.isDigit = true := hfs c List.mem_cons_self
    have hdot : c ≠ '.' := ne_of_isDigit hc rfl
    have hletter : isLetterStart c = false := not_isLetterStart_of_isDigit hc
    simp [readFraction?, hdot, hletter]

theorem readFraction?_none {more : List Char} (hc : c ≠ '.') :
    readFraction? (c :: more) = none := by
  unfold readFraction?
  split
  · rename_i heq
    cases heq
    exact absurd rfl hc
  · rfl

theorem readExponent?_none (h : Delimited rest) : readExponent? rest = none := by
  obtain ⟨c, more, rfl, hc⟩ := h.cases (P := fun c => ¬ (c = 'e' ∨ c = 'E')) (by decide)
  exact if_neg hc

/-- The sign of an exponent is always written. -/
theorem readExponent?_digits (hes : Digits es) (hne : es ≠ []) (hs : Stops rest) (negative : Bool) :
    readExponent? ('e' :: (if negative then '-' else '+') :: (es ++ rest)) =
      some (if negative then -(Nat.ofDigitChars 10 es 0 : ℤ)
        else Nat.ofDigitChars 10 es 0, rest) := by
  obtain ⟨k, hk⟩ : ∃ k, es.length = k + 1 := ⟨es.length - 1, by
    have hpos := List.length_pos_of_ne_nil hne
    omega⟩
  have hread := readDigits_digits hes hs 0 0
  rw [hk, Nat.zero_add] at hread
  cases negative with
  | true => simp [readExponent?, hread]
  | false => simp [readExponent?, hread]

theorem readDecimal_whole (hws : Digits ws) (hrest : Delimited rest) :
    readDecimal (ws ++ rest) = some (.int (Nat.ofDigitChars 10 ws 0), rest) := by
  have hfraction : readFraction? rest = none := by
    obtain ⟨c, more, rfl, hc⟩ := hrest.cases (P := (· ≠ '.')) (by decide)
    exact readFraction?_none hc
  simp only [readDecimal, readDigits_digits hws (stops_delimited hrest), hfraction,
    readExponent?_none hrest, endNumber_delimited hrest]

theorem readDecimal_fraction (hws : Digits ws) (hfs : Digits fs) (hne : fs ≠ [])
    (hrest : Delimited rest) :
    readDecimal (ws ++ '.' :: fs ++ rest) =
      (Binary64.ofDecimal? false (Nat.ofDigitChars 10 (ws ++ fs) 0) (-fs.length)).map
        fun x => (.float x, rest) := by
  have hpoint : Stops ('.' :: fs ++ rest) := stops_cons (by decide)
  rw [List.append_assoc]
  simp only [readDecimal, readDigits_digits hws hpoint, readFraction?_digits hfs hne,
    readDigits_digits hfs (stops_delimited hrest), readExponent?_none hrest,
    endNumber_delimited hrest, Nat.ofDigitChars_append, Nat.zero_add]

def exponentPart (negative : Bool) (es : List Char) : List Char :=
  'e' :: (if negative then '-' else '+') :: es

theorem stops_exponentPart (negative : Bool) : Stops (exponentPart negative es ++ rest) :=
  stops_cons (by decide)

theorem readDecimal_exponent (hws : Digits ws) (hes : Digits es) (hne : es ≠ []) (negative : Bool)
    (hrest : Delimited rest) :
    readDecimal (ws ++ exponentPart negative es ++ rest) =
      (Binary64.ofDecimal? false (Nat.ofDigitChars 10 ws 0)
        (if negative then -(Nat.ofDigitChars 10 es 0 : ℤ) else Nat.ofDigitChars 10 es 0)).map
        fun x => (.float x, rest) := by
  have hfraction : readFraction? (exponentPart negative es ++ rest) = none :=
    readFraction?_none (by decide)
  have hexponent := readExponent?_digits hes hne (stops_delimited hrest) negative
  rw [List.append_assoc]
  simp only [readDecimal, readDigits_digits hws (stops_exponentPart negative), hfraction]
  simp only [exponentPart, List.cons_append, hexponent, endNumber_delimited hrest]

theorem readDecimal_fraction_exponent (hws : Digits ws) (hfs : Digits fs) (hfne : fs ≠ [])
    (hes : Digits es) (hne : es ≠ []) (negative : Bool) (hrest : Delimited rest) :
    readDecimal (ws ++ '.' :: fs ++ exponentPart negative es ++ rest) =
      (Binary64.ofDecimal? false (Nat.ofDigitChars 10 (ws ++ fs) 0)
        ((if negative then -(Nat.ofDigitChars 10 es 0 : ℤ) else Nat.ofDigitChars 10 es 0) -
          fs.length)).map fun x => (.float x, rest) := by
  have hpoint : Stops ('.' :: fs ++ (exponentPart negative es ++ rest)) := stops_cons (by decide)
  have hexponent := readExponent?_digits hes hne (stops_delimited hrest) negative
  rw [List.append_assoc, List.append_assoc]
  simp only [readDecimal, readDigits_digits hws hpoint, readFraction?_digits hfs hfne,
    readDigits_digits hfs (stops_exponentPart negative)]
  simp only [exponentPart, List.cons_append, hexponent, endNumber_delimited hrest,
    Nat.ofDigitChars_append, Nat.zero_add]

/-- Digits begin a decimal number, unless a radix is named after a zero. -/
theorem readToken?_digits (hws : Digits ws) (hne : ws ≠ [])
    (htail : ∀ c more, tail = c :: more → c ∉ ['x', 'o', 'b']) :
    readToken? (ws ++ tail) = readDecimal (ws ++ tail) := by
  cases ws with
  | nil => exact absurd rfl hne
  | cons c more =>
    have hc : c.isDigit = true := hws c List.mem_cons_self
    have hletter : isLetterStart c = false := not_isLetterStart_of_isDigit hc
    have hr : c ≠ 'r' := ne_of_isDigit hc rfl
    have hsecond : ∀ d rest, more ++ tail = d :: rest → d ∉ ['x', 'o', 'b'] := by
      intro d rest hd
      cases more with
      | nil => exact htail d rest hd
      | cons e more' =>
        have hde : e = d := (List.cons.inj hd).1
        have hdigit : e.isDigit = true := hws e (List.mem_cons_of_mem _ List.mem_cons_self)
        have hnone : ∀ d ∈ ['x', 'o', 'b'], d.isDigit = false := forall_mem_of_all (by decide)
        intro hmem
        exact ne_of_isDigit hdigit (hnone d hmem) hde
    have hnumber : readNumber (c :: (more ++ tail)) = readDecimal (c :: (more ++ tail)) := by
      unfold readNumber
      split
      · rename_i rest heq
        exact absurd (by decide) (hsecond 'x' rest (List.cons.inj heq).2)
      · rename_i rest heq
        exact absurd (by decide) (hsecond 'o' rest (List.cons.inj heq).2)
      · rename_i rest heq
        exact absurd (by decide) (hsecond 'b' rest (List.cons.inj heq).2)
      · rfl
    rw [List.cons_append]
    unfold readToken?
    split
    · rename_i heq
      cases heq
    · rename_i heq
      exact absurd (List.cons.inj heq).1 hr
    · rename_i d rest hnot heq
      cases heq
      rw [hletter, hc]
      exact hnumber

end SelectionText

namespace Json

open SelectionText

def magnitude : JsonNumber → List Char
  | .int n => Text.digitsOf 10 n.natAbs
  | .float x =>
    if x.isZero then "0.0".toList
    else
      let c := Decimal.shortest x
      let digits := Text.digitsOf 10 c.digits
      layoutDecimal floatLayout digits (digits.length + c.exponent)

def isNegative : JsonNumber → Bool
  | .int n => n < 0
  | .float x => x.negative

def numberToken : JsonNumber → Token
  | .int n => .int n.natAbs
  | .float x => .float x.abs

theorem printNumber_eq (n : JsonNumber) :
    printNumber n = if isNegative n then '-' :: magnitude n else magnitude n := by
  cases n with
  | int n => simp only [printNumber, printInt, isNegative, magnitude, decide_eq_true_eq]
  | float x => rfl

variable {n m : JsonNumber} {rest : List Char}

/-- Nothing is lost between the sign and the token. -/
theorem number_ext (hsign : isNegative n = isNegative m) (htoken : numberToken n = numberToken m) :
    n = m := by
  cases n with
  | int a =>
    cases m with
    | int b =>
      have habs : a.natAbs = b.natAbs := Token.int.inj htoken
      have hneg : a < 0 ↔ b < 0 := by simpa [isNegative] using hsign
      rw [JsonNumber.int.injEq]
      omega
    | float y => cases htoken
  | float x =>
    cases m with
    | int b => cases htoken
    | float y =>
      have habs : x.abs = y.abs := Token.float.inj htoken
      obtain ⟨sx, nx, ex, hx⟩ := x
      obtain ⟨sy, ny, ey, hy⟩ := y
      simp only [Binary64.abs, Binary64.mk.injEq, true_and] at habs
      obtain ⟨rfl, rfl⟩ := habs
      change sx = sy at hsign
      subst hsign
      rfl

theorem digitsNumber_eq (ds : List Char) : digitsNumber ds = Nat.ofDigitChars 10 ds 0 := by
  simp only [digitsNumber, Nat.ofDigitChars_eq_foldl, Nat.mul_comm]

def NumberText.fractionText (t : NumberText) : List Char :=
  match t.fraction with
  | none => []
  | some fs => '.' :: fs

def NumberText.exponentText (t : NumberText) : List Char :=
  match t.exponent with
  | none => []
  | some e => exponentPart e.negative e.digits

def NumberText.unsigned (t : NumberText) : List Char :=
  t.whole ++ (t.fractionText ++ t.exponentText)

def NumberText.digits (t : NumberText) : List Char := t.whole ++ t.fraction.getD []

/-- The power of ten that counts for the last digit. -/
def NumberText.power (t : NumberText) : ℤ :=
  (t.exponent.map Exponent.toInt).getD 0 - (t.fraction.getD []).length

structure NumberText.Written (t : NumberText) : Prop where
  whole : Digits t.whole ∧ t.whole ≠ []
  fraction : ∀ fs, t.fraction = some fs → Digits fs ∧ fs ≠ []
  exponent : ∀ e, t.exponent = some e → Digits e.digits ∧ e.digits ≠ []

def NumberText.Leads (t : NumberText) : Prop := t.whole = ['0'] ∨ ∀ more, t.whole ≠ '0' :: more

variable {ds ws fs es : List Char}

theorem readToken?_unsigned {t : NumberText} (ht : t.Written)
    (hdecimal : t.fraction.isSome ∨ t.exponent.isSome) (hrest : Delimited rest) :
    readToken? (t.unsigned ++ rest) =
      (Binary64.ofDecimal? false (Nat.ofDigitChars 10 t.digits 0) t.power).map
        fun x => (.float x, rest) := by
  obtain ⟨negative, ws, fraction, exponent⟩ := t
  obtain ⟨⟨hws, hwne⟩, hfraction, hexponent⟩ := ht
  cases fraction with
  | none =>
    cases exponent with
    | none => simp at hdecimal
    | some e =>
      obtain ⟨hes, hene⟩ := hexponent e rfl
      have hread := readDecimal_exponent hws hes hene e.negative hrest
      rw [← digitsNumber_eq e.digits] at hread
      simp only [NumberText.unsigned, NumberText.fractionText, NumberText.exponentText,
        NumberText.digits, NumberText.power, Option.getD_none,
        Option.map_some, Option.getD_some, List.append_nil, List.nil_append, List.length_nil,
        Nat.cast_zero, sub_zero]
      refine Eq.trans ?_ hread
      rw [List.append_assoc]
      refine readToken?_digits hws hwne ?_
      rintro c more ⟨⟩
      decide
  | some fs =>
    obtain ⟨hfs, hfne⟩ := hfraction fs rfl
    cases exponent with
    | none =>
      have hread := readDecimal_fraction hws hfs hfne hrest
      simp only [NumberText.unsigned, NumberText.fractionText, NumberText.exponentText,
        NumberText.digits, NumberText.power, Option.getD_some,
        Option.map_none, Option.getD_none, List.append_nil, zero_sub]
      refine Eq.trans ?_ hread
      rw [List.append_assoc]
      refine readToken?_digits hws hwne ?_
      rintro c more ⟨⟩
      decide
    | some e =>
      obtain ⟨hes, hene⟩ := hexponent e rfl
      have hread := readDecimal_fraction_exponent hws hfs hfne hes hene e.negative hrest
      rw [← digitsNumber_eq e.digits] at hread
      simp only [NumberText.unsigned, NumberText.fractionText, NumberText.exponentText,
        NumberText.digits, NumberText.power, Option.getD_some,
        Option.map_some]
      refine Eq.trans ?_ hread
      simp only [List.append_assoc]
      refine readToken?_digits hws hwne ?_
      rintro c more ⟨⟩
      decide

structure NumberText.Places (t : NumberText) (ds : List Char) (p : ℤ) : Prop where
  written : t.Written
  decimal : t.fraction.isSome ∨ t.exponent.isSome
  leads : (∀ more, ds ≠ '0' :: more) → t.Leads
  value : ∀ negative, Binary64.ofDecimal? negative (Nat.ofDigitChars 10 t.digits 0) t.power =
    Binary64.ofDecimal? negative (Nat.ofDigitChars 10 ds 0) (p - ds.length)

theorem places_fraction (negative : Bool) (hws : Digits ws) (hwne : ws ≠ []) (hfs : Digits fs)
    (hfne : fs ≠ []) {p : ℤ}
    (hleads : (∀ more, ds ≠ '0' :: more) → ws = ['0'] ∨ ∀ more, ws ≠ '0' :: more)
    (hvalue : ∀ sign, Binary64.ofDecimal? sign (Nat.ofDigitChars 10 (ws ++ fs) 0) (-fs.length) =
      Binary64.ofDecimal? sign (Nat.ofDigitChars 10 ds 0) (p - ds.length)) :
    NumberText.Places ⟨negative, ws, some fs, none⟩ ds p := by
  refine ⟨⟨⟨hws, hwne⟩, ?_, nofun⟩, Or.inl rfl, hleads, ?_⟩
  · rintro fs' ⟨⟩
    exact ⟨hfs, hfne⟩
  · intro sign
    simp only [NumberText.digits, NumberText.power, Option.getD_some, Option.map_none,
      Option.getD_none, zero_sub]
    exact hvalue sign

/-- With an exponent, the point stands behind the first digit or not at all. -/
theorem places_scientific (negative : Bool) (hds : Digits ds) (hne : ds ≠ []) (p : ℤ) (down : Bool)
    (hdown : down = true ↔ p - 1 < 0) :
    ∃ t : NumberText, t.negative = negative ∧ t.Places ds p ∧ t.unsigned =
      ds.take 1 ++ (match ds.drop 1 with | [] => [] | more => '.' :: more) ++
        exponentPart down (Nat.toDigits 10 (p - 1).natAbs) := by
  cases ds with
  | nil => exact absurd rfl hne
  | cons d more =>
    have hd : Digits [d] :=
      fun c hc => hds c (List.mem_cons.mpr (Or.inl (List.mem_singleton.mp hc)))
    have hmore : Digits more := fun c hc => hds c (List.mem_cons_of_mem _ hc)
    have hexponent : (if down then -(digitsNumber (Nat.toDigits 10 (p - 1).natAbs) : ℤ)
        else digitsNumber (Nat.toDigits 10 (p - 1).natAbs)) = p - 1 := by
      rw [digitsNumber_eq, Nat.ofDigitChars_ten_toDigits]
      simp only [hdown]
      split_ifs
      · omega
      · omega
    have hes : ∀ e : Exponent, some ⟨down, Nat.toDigits 10 (p - 1).natAbs⟩ = some e →
        Digits e.digits ∧ e.digits ≠ [] := by
      rintro e ⟨⟩
      exact ⟨digits_toDigits _, Nat.toDigits_ne_nil⟩
    have hleads : (∀ more', d :: more ≠ '0' :: more') →
        [d] = ['0'] ∨ ∀ more', [d] ≠ '0' :: more' := by
      intro hlead
      refine Or.inr ?_
      rintro more' ⟨⟩
      exact hlead more rfl
    cases more with
    | nil =>
      refine ⟨⟨negative, [d], none, some ⟨down, Nat.toDigits 10 (p - 1).natAbs⟩⟩, rfl,
        ⟨⟨⟨hd, by simp⟩, nofun, hes⟩, Or.inr rfl, hleads, ?_⟩, ?_⟩
      · intro sign
        simp [NumberText.digits, NumberText.power, Exponent.toInt, hexponent]
      · simp [NumberText.unsigned, NumberText.fractionText, NumberText.exponentText]
    | cons e more =>
      refine ⟨⟨negative, [d], some (e :: more), some ⟨down, Nat.toDigits 10 (p - 1).natAbs⟩⟩, rfl,
        ⟨⟨⟨hd, by simp⟩, ?_, hes⟩, Or.inl rfl, hleads, ?_⟩, ?_⟩
      · rintro fs ⟨⟩
        exact ⟨hmore, by simp⟩
      · intro sign
        have hpower : p - 1 - ((e :: more).length : ℤ) = p - ((d :: e :: more).length : ℤ) := by
          simp only [List.length_cons]
          omega
        simp only [NumberText.digits, NumberText.power, Option.getD_some, Option.map_some,
          Exponent.toInt, hexponent, hpower, List.singleton_append]
      · simp [NumberText.unsigned, NumberText.fractionText, NumberText.exponentText]

/-- Each of the layouts writes the digits and says where the point is. -/
theorem layoutDecimal_places (negative : Bool) (hds : Digits ds) (hne : ds ≠ []) (p : ℤ) :
    ∃ t : NumberText, t.negative = negative ∧ t.Places ds p ∧
      t.unsigned = layoutDecimal floatLayout ds p := by
  have hpos : 0 < ds.length := List.length_pos_of_ne_nil hne
  have hzero : Digits ['0'] := digits_zeros 1
  simp only [layoutDecimal]
  split_ifs with hplain hsmall hinside hneg
  · -- zeros stand between the point and the digits
    have hzeros : Digits (List.replicate (-p).toNat '0' ++ ds) := (digits_zeros _).append hds
    refine ⟨⟨negative, ['0'], some (List.replicate (-p).toNat '0' ++ ds), none⟩, rfl,
      places_fraction negative hzero (by simp) hzeros (by simp [hne]) (fun _ => Or.inl rfl) ?_, ?_⟩
    · intro sign
      have hvalue : Nat.ofDigitChars 10 (['0'] ++ (List.replicate (-p).toNat '0' ++ ds)) 0 =
          Nat.ofDigitChars 10 ds 0 := by
        simp [Nat.ofDigitChars_append, Nat.ofDigitChars_cons]
      have hexponent : -((List.replicate (-p).toNat '0' ++ ds).length : ℤ) = p - ds.length := by
        rw [List.length_append, List.length_replicate]
        omega
      rw [hvalue, hexponent]
    · simp [NumberText.unsigned, NumberText.fractionText, NumberText.exponentText]
  · -- the point stands among the digits
    have htake : Digits (ds.take p.toNat) := fun c hc => hds c (List.mem_of_mem_take hc)
    have hdrop : Digits (ds.drop p.toNat) := fun c hc => hds c (List.mem_of_mem_drop hc)
    have htne : ds.take p.toNat ≠ [] := by
      intro hnil
      rcases List.take_eq_nil_iff.mp hnil with h | h
      · omega
      · exact hne h
    have hdne : ds.drop p.toNat ≠ [] := by
      intro hnil
      have hle := List.drop_eq_nil_iff.mp hnil
      omega
    refine ⟨⟨negative, ds.take p.toNat, some (ds.drop p.toNat), none⟩, rfl,
      places_fraction negative htake htne hdrop hdne ?_ ?_, ?_⟩
    · intro hlead
      refine Or.inr ?_
      intro more hmore
      refine hlead (more ++ ds.drop p.toNat) ?_
      rw [← List.cons_append, ← hmore, List.take_append_drop]
    · intro sign
      have hexponent : -((ds.drop p.toNat).length : ℤ) = p - ds.length := by
        rw [List.length_drop]
        omega
      rw [List.take_append_drop, hexponent]
    · simp [NumberText.unsigned, NumberText.fractionText, NumberText.exponentText]
  · -- zeros stand between the digits and the point
    obtain ⟨k, hk⟩ : ∃ k, p.toNat - ds.length = k := ⟨_, rfl⟩
    have hzeros : Digits (ds ++ List.replicate k '0') := hds.append (digits_zeros _)
    refine ⟨⟨negative, ds ++ List.replicate k '0', some ['0'], none⟩, rfl,
      places_fraction negative hzeros (by simp [hne]) hzero (by simp) ?_ ?_, ?_⟩
    · intro hlead
      refine Or.inr ?_
      intro more hmore
      cases ds with
      | nil => exact hne rfl
      | cons d tail => exact hlead tail (by rw [(List.cons.inj hmore).1])
    · intro sign
      have hvalue : Nat.ofDigitChars 10 (ds ++ List.replicate k '0' ++ ['0']) 0 =
          Nat.ofDigitChars 10 ds 0 * tenPow (k + 1) := by
        rw [List.append_assoc, ← List.replicate_succ', Nat.ofDigitChars_append,
          Nat.ofDigitChars_replicate_zero, mul_comm]
        rfl
      have hexponent : -((['0'] : List Char).length : ℤ) + (k + 1 : ℕ) = p - ds.length := by
        rw [List.length_singleton]
        omega
      rw [hvalue, Binary64.ofDecimal?_mul_tenPow, hexponent]
    · simp [NumberText.unsigned, NumberText.fractionText, NumberText.exponentText, hk]
  · exact places_scientific negative hds hne p true (by simp [hneg])
  · exact places_scientific negative hds hne p false (by simp [hneg])

theorem zero_places (negative : Bool) :
    NumberText.Places ⟨negative, ['0'], some ['0'], none⟩ ['0'] 1 := by
  have hzero : Digits ['0'] := digits_zeros 1
  refine places_fraction negative hzero (by simp) hzero (by simp) (fun _ => Or.inl rfl) ?_
  intro sign
  simp [Nat.ofDigitChars_cons, Binary64.ofDecimal?]

theorem readToken?_layoutDecimal (hds : Digits ds) (hne : ds ≠ []) (p : ℤ)
    (hrest : Delimited rest) :
    readToken? (layoutDecimal floatLayout ds p ++ rest) =
      (Binary64.ofDecimal? false (Nat.ofDigitChars 10 ds 0) (p - ds.length)).map
        fun x => (.float x, rest) := by
  obtain ⟨t, -, hplaces, htext⟩ := layoutDecimal_places false hds hne p
  rw [← htext, readToken?_unsigned hplaces.written hplaces.decimal hrest, hplaces.value]

/-- A printed number is read as its token, and reading stops at its end. -/
theorem readToken?_magnitude (n : JsonNumber) (hrest : Delimited rest) :
    readToken? (magnitude n ++ rest) = some (numberToken n, rest) := by
  cases n with
  | int n =>
    have htail : ∀ c more, rest = c :: more → c ∉ ['x', 'o', 'b'] := by
      obtain ⟨c, more, rfl, hc⟩ := hrest.cases (P := (· ∉ ['x', 'o', 'b'])) (by decide)
      rintro d tail ⟨⟩
      exact hc
    simp only [magnitude, numberToken, Text.digitsOf]
    rw [readToken?_digits (digits_toDigits _) Nat.toDigits_ne_nil htail,
      readDecimal_whole (digits_toDigits _) hrest, Nat.ofDigitChars_ten_toDigits]
  | float x =>
    simp only [magnitude, numberToken]
    split_ifs with hzero
    · have hplaces := zero_places false
      have hread := readToken?_unsigned hplaces.written hplaces.decimal hrest
      have hsignificand : x.significand = 0 := by simpa [Binary64.isZero] using hzero
      have habs : x.abs = Binary64.zero false := by
        rw [Binary64.eq_zero x hsignificand]
        rfl
      rw [habs]
      exact hread
    · have hnames := Decimal.shortest_names (Bool.eq_false_iff.mpr hzero)
      have habs := Binary64.ofDecimal?_abs x.negative (Decimal.shortest x).digits
        (Decimal.shortest x).exponent
      rw [hnames] at habs
      have hread := readToken?_layoutDecimal (digits_toDigits (Decimal.shortest x).digits)
        Nat.toDigits_ne_nil
        ((Nat.toDigits 10 (Decimal.shortest x).digits).length + (Decimal.shortest x).exponent) hrest
      rw [add_sub_cancel_left, Nat.ofDigitChars_ten_toDigits, habs] at hread
      exact hread

theorem layoutDecimal_head (hds : Digits ds) (hne : ds ≠ []) (p : ℤ) :
    ∃ c more, layoutDecimal floatLayout ds p = c :: more ∧ c.isDigit = true := by
  cases ds with
  | nil => exact absurd rfl hne
  | cons d tail =>
    have hd : d.isDigit = true := hds d List.mem_cons_self
    simp only [layoutDecimal]
    split_ifs with hplain hsmall hinside hneg
    · exact ⟨'0', _, rfl, rfl⟩
    · obtain ⟨k, hk⟩ : ∃ k, p.toNat = k + 1 := ⟨p.toNat - 1, by omega⟩
      rw [hk]
      exact ⟨d, _, rfl, hd⟩
    · exact ⟨d, _, rfl, hd⟩
    · exact ⟨d, _, rfl, hd⟩
    · exact ⟨d, _, rfl, hd⟩

theorem magnitude_head (n : JsonNumber) :
    ∃ c more, magnitude n = c :: more ∧ c.isDigit = true := by
  cases n with
  | int n =>
    cases h : Nat.toDigits 10 n.natAbs with
    | nil => exact absurd h Nat.toDigits_ne_nil
    | cons c more => exact ⟨c, more, h, digits_toDigits n.natAbs c (h ▸ List.mem_cons_self)⟩
  | float x =>
    simp only [magnitude]
    split_ifs
    · exact ⟨'0', ['.', '0'], rfl, rfl⟩
    · exact layoutDecimal_head (digits_toDigits _) Nat.toDigits_ne_nil _

end Json

end GraphQLClient
