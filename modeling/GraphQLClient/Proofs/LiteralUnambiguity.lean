import GraphQLClient.Document.Printer
import GraphQLClient.Proofs.NestedValues
import GraphQLClient.Proofs.NumberReading

/-!
# Printed literals are unambiguous

Two literals with the same text, each with a mark that ends it behind, are the same value, and so
are the texts behind them.
-/
namespace GraphQLClient

/-- Two runs of a class of characters, each with something else behind. -/
theorem run_inj {p : Char → Bool} {a b r s : List Char} (ha : ∀ c ∈ a, p c = true)
    (hb : ∀ c ∈ b, p c = true) (hr : ∀ c more, r = c :: more → p c = false)
    (hs : ∀ c more, s = c :: more → p c = false) (h : a ++ r = b ++ s) : a = b ∧ r = s := by
  have hstop : ∀ t : List Char, (∀ c more, t = c :: more → p c = false) → t.takeWhile p = [] := by
    intro t ht
    cases t with
    | nil => rfl
    | cons c more => exact List.takeWhile_cons_of_neg (by simp [ht c more rfl])
  have htake := congrArg (List.takeWhile p) h
  rw [List.takeWhile_append_of_pos ha, List.takeWhile_append_of_pos hb, hstop r hr, hstop s hs,
    List.append_nil, List.append_nil] at htake
  subst htake
  exact ⟨rfl, List.append_cancel_left h⟩

theorem name_inj {a b r s : List Char} (ha : Text.isNameList a = true)
    (hb : Text.isNameList b = true) (hr : EndsName r) (hs : EndsName s) (h : a ++ r = b ++ s) :
    a = b ∧ r = s :=
  run_inj (Text.isNameChar_of_isNameList ha) (Text.isNameChar_of_isNameList hb) hr.not_isNameChar
    hs.not_isNameChar h

namespace Json

variable {r s : List Char}

/-- The magnitude of a number begins with a digit, so a sign is seen. -/
theorem printNumber_inj {n m : JsonNumber} (hr : Delimited r) (hs : Delimited s)
    (h : printNumber n ++ r = printNumber m ++ s) : n = m ∧ r = s := by
  have hminus : ∀ (k : JsonNumber) (t u : List Char), magnitude k ++ t ≠ '-' :: u := by
    intro k t u heq
    obtain ⟨c, more, hmagnitude, hc⟩ := magnitude_head k
    rw [hmagnitude] at heq
    rw [(List.cons.inj heq).1] at hc
    revert hc
    decide
  have hsame : isNegative n = isNegative m ∧ magnitude n ++ r = magnitude m ++ s := by
    rw [printNumber_eq, printNumber_eq] at h
    cases hn : isNegative n with
    | true =>
      cases hm : isNegative m with
      | true =>
        rw [hn, hm] at h
        exact ⟨rfl, (List.cons.inj h).2⟩
      | false =>
        rw [hn, hm] at h
        exact absurd h.symm (hminus m s _)
    | false =>
      cases hm : isNegative m with
      | true =>
        rw [hn, hm] at h
        exact absurd h (hminus n r _)
      | false =>
        rw [hn, hm] at h
        exact ⟨rfl, h⟩
  have hread := readToken?_magnitude n hr
  rw [hsame.2, readToken?_magnitude m hs] at hread
  obtain ⟨htoken, hrest⟩ := Prod.mk.inj (Option.some.inj hread)
  exact ⟨number_ext hsame.1 htoken.symm, hrest.symm⟩

def digitValue (c : Char) : Nat := if c.isDigit then c.toNat - 48 else c.toNat - 87

def unescape : List Char → Option (Char × List Char)
  | '\\' :: 'u' :: '0' :: '0' :: a :: b :: rest =>
    some (Char.ofNat (digitValue a * 16 + digitValue b), rest)
  | '\\' :: 'b' :: rest => some ('\x08', rest)
  | '\\' :: 'f' :: rest => some ('\x0c', rest)
  | '\\' :: 'n' :: rest => some ('\n', rest)
  | '\\' :: 'r' :: rest => some ('\r', rest)
  | '\\' :: 't' :: rest => some ('\t', rest)
  | '\\' :: c :: rest => some (c, rest)
  | c :: rest => some (c, rest)
  | [] => none

theorem unescape_escapeChar (c : Char) (rest : List Char) :
    unescape (escapeChar c ++ rest) = some (c, rest) := by
  by_cases hquote : c = '"'
  · subst hquote; rfl
  by_cases hslash : c = '\\'
  · subst hslash; rfl
  by_cases hback : c = '\x08'
  · subst hback; rfl
  by_cases hfeed : c = '\x0c'
  · subst hfeed; rfl
  by_cases hnewline : c = '\n'
  · subst hnewline; rfl
  by_cases hreturn : c = '\r'
  · subst hreturn; rfl
  by_cases htab : c = '\t'
  · subst htab; rfl
  simp only [escapeChar, hquote, hslash, hback, hfeed, hnewline, hreturn, htab, if_false]
  split_ifs with hlow
  · have hall : ∀ n < 0x20, digitValue (Nat.digitChar (n / 16)) * 16 +
        digitValue (Nat.digitChar (n % 16)) = n := by decide
    have hvalue := hall c.toNat hlow
    simp only [List.cons_append, List.nil_append, unescape, hvalue, Char.ofNat_toNat]
  · rw [List.singleton_append]
    unfold unescape
    split
    all_goals simp_all

theorem escapeChar_inj {c d : Char} (h : escapeChar c ++ r = escapeChar d ++ s) :
    c = d ∧ r = s := by
  have hread := unescape_escapeChar c r
  rw [h, unescape_escapeChar] at hread
  obtain ⟨hchar, hrest⟩ := Prod.mk.inj (Option.some.inj hread)
  exact ⟨hchar.symm, hrest.symm⟩

/-- No escape begins with the quote that closes a text. -/
theorem escapeChar_ne_quote (c : Char) : escapeChar c ++ r ≠ '"' :: s := by
  intro h
  by_cases hquote : c = '"'
  · subst hquote
    exact absurd (List.cons.inj h).1 (by decide)
  · have hread := unescape_escapeChar c r
    rw [h] at hread
    exact hquote (Prod.mk.inj (Option.some.inj hread)).1.symm

theorem printString_inj {cs ds : List Char} (h : printString cs ++ r = printString ds ++ s) :
    cs = ds ∧ r = s := by
  have hbody : cs.flatMap escapeChar ++ '"' :: r = ds.flatMap escapeChar ++ '"' :: s := by
    simpa [printString] using h
  clear h
  induction cs generalizing ds with
  | nil =>
    cases ds with
    | nil => exact ⟨rfl, (List.cons.inj hbody).2⟩
    | cons d more =>
      rw [List.flatMap_cons, List.append_assoc] at hbody
      exact absurd hbody.symm (escapeChar_ne_quote d)
  | cons c cs ih =>
    cases ds with
    | nil =>
      rw [List.flatMap_cons, List.append_assoc] at hbody
      exact absurd hbody (escapeChar_ne_quote c)
    | cons d more =>
      rw [List.flatMap_cons, List.flatMap_cons, List.append_assoc, List.append_assoc] at hbody
      obtain ⟨rfl, hmore⟩ := escapeChar_inj hbody
      obtain ⟨rfl, hrest⟩ := ih hmore
      exact ⟨rfl, hrest⟩

end Json

namespace Document

inductive LiteralForm where
  | null
  | yes
  | no
  | number
  | name
  | text
  | list
  | object
  deriving DecidableEq

def formOf? (c : Char) : Option LiteralForm :=
  if c = 'n' then some .null
  else if c = 't' then some .yes
  else if c = 'f' then some .no
  else if c = '$' then some .name
  else if c = '"' then some .text
  else if c = '[' then some .list
  else if c = '{' then some .object
  else if c = '-' ∨ c.isDigit then some .number
  else none

def literalForm : Json → LiteralForm
  | .null => .null
  | .bool b => if b then .yes else .no
  | .number _ => .number
  | .string s => if isVariable s.toList then .name else .text
  | .array _ => .list
  | .object _ => .object

theorem formOf?_digit {c : Char} (hc : c.isDigit = true) : formOf? c = some .number := by
  have hother : c ∉ ['n', 't', 'f', '$', '"', '[', '{'] := not_mem_of_class hc (by decide)
  simp only [List.mem_cons, List.not_mem_nil, or_false, not_or] at hother
  simp [formOf?, hother, hc]

theorem printLiteral_form (value : Json) :
    ∃ c more, printLiteral value = c :: more ∧ formOf? c = some (literalForm value) := by
  cases value with
  | null => exact ⟨_, _, rfl, rfl⟩
  | bool b => cases b <;> exact ⟨_, _, rfl, rfl⟩
  | number n =>
    obtain ⟨c, more, hmagnitude, hc⟩ := Json.magnitude_head n
    simp only [printLiteral, Json.printNumber_eq, hmagnitude]
    split_ifs
    · exact ⟨_, _, rfl, rfl⟩
    · exact ⟨_, _, rfl, formOf?_digit hc⟩
  | string s =>
    simp only [printLiteral, literalForm]
    split_ifs with hvariable
    · exact ⟨_, _, (isVariable_eq_true hvariable).1, rfl⟩
    · exact ⟨_, _, rfl, rfl⟩
  | array items => exact ⟨_, _, rfl, rfl⟩
  | object fields => exact ⟨_, _, rfl, rfl⟩

theorem literalForm_eq {v w : Json} {r s : List Char}
    (h : printLiteral v ++ r = printLiteral w ++ s) : literalForm v = literalForm w := by
  obtain ⟨c, more, hv, hc⟩ := printLiteral_form v
  obtain ⟨d, others, hw, hd⟩ := printLiteral_form w
  rw [hv, hw] at h
  rw [(List.cons.inj h).1, hd] at hc
  exact (Option.some.inj hc).symm

section Forms

variable {w : Json}

theorem null_of_form (h : literalForm .null = literalForm w) : w = .null := by
  cases w <;> grind [literalForm]

theorem bool_of_form {b : Bool} (h : literalForm (.bool b) = literalForm w) : w = .bool b := by
  cases w <;> grind [literalForm]

theorem number_of_form {n : JsonNumber} (h : literalForm (.number n) = literalForm w) :
    ∃ m, w = .number m := by
  cases w <;> grind [literalForm]

theorem string_of_form {s : String} (h : literalForm (.string s) = literalForm w) :
    ∃ t, w = .string t ∧ isVariable t.toList = isVariable s.toList := by
  cases w <;> grind [literalForm]

theorem array_of_form {items : List Json} (h : literalForm (.array items) = literalForm w) :
    ∃ others, w = .array others := by
  cases w <;> grind [literalForm]

theorem object_of_form {fields : List (String × Json)}
    (h : literalForm (.object fields) = literalForm w) : ∃ others, w = .object others := by
  cases w <;> grind [literalForm]

end Forms

def behind (others : List Char) (last : Bool) (closing : Char) (rest : List Char) : List Char :=
  if last then closing :: rest else ", ".toList ++ (others ++ closing :: rest)

section Lists

variable {xs ys rest more : List Char} {a b : Bool} {closing : Char}

theorem delimited_behind (hclosing : closing ∈ [')', ']', '}']) :
    Delimited (behind xs a closing rest) := by
  unfold behind
  split_ifs
  · exact delimited_cons (List.mem_cons_of_mem _ hclosing)
  · exact delimited_cons (by decide)

/-- Whether an element is the last one is seen from what stands behind it. -/
theorem behind_inj (hclosing : closing ≠ ',') (ha : a = true → xs = []) (hb : b = true → ys = [])
    (h : behind xs a closing rest = behind ys b closing more) :
    xs ++ closing :: rest = ys ++ closing :: more := by
  cases a with
  | true =>
    cases b with
    | true =>
      rw [ha rfl, hb rfl]
      exact h
    | false => exact absurd (List.cons.inj h).1 hclosing
  | false =>
    cases b with
    | true => exact absurd (List.cons.inj h).1.symm hclosing
    | false => exact List.append_cancel_left h

end Lists

theorem printItems_cons (item : Json) (items : List Json) (rest : List Char) :
    printItems (item :: items) ++ ']' :: rest =
      printLiteral item ++ behind (printItems items) items.isEmpty ']' rest := by
  cases items with
  | nil => rfl
  | cons next more => simp [printItems, behind]

theorem printEntries_cons (name : String) (value : Json) (fields : List (String × Json))
    (closing : Char) (rest : List Char) :
    printEntries ((name, value) :: fields) ++ closing :: rest =
      name.toList ++ (": ".toList ++ (printLiteral value ++
        behind (printEntries fields) fields.isEmpty closing rest)) := by
  cases fields with
  | nil => simp [printEntries, behind]
  | cons next more => simp [printEntries, behind]

theorem printItems_of_isEmpty {items : List Json} (h : items.isEmpty = true) :
    printItems items = [] := by
  rw [List.isEmpty_iff.mp h]
  rfl

theorem printEntries_of_isEmpty {fields : List (String × Json)} (h : fields.isEmpty = true) :
    printEntries fields = [] := by
  rw [List.isEmpty_iff.mp h]
  rfl

theorem printItems_ne (item : Json) (items : List Json) (rest more : List Char) :
    printItems (item :: items) ++ ']' :: rest ≠ ']' :: more := by
  intro h
  obtain ⟨c, others, hprint, hc⟩ := printLiteral_form item
  rw [printItems_cons, hprint] at h
  rw [(List.cons.inj h).1] at hc
  cases hc

theorem printEntries_ne {name : String} (hname : Text.isName name = true) (value : Json)
    (fields : List (String × Json)) {closing : Char} (hclosing : closing ∈ [')', ']', '}'])
    (rest more : List Char) :
    printEntries ((name, value) :: fields) ++ closing :: rest ≠ closing :: more := by
  intro h
  obtain ⟨first, others, hprint, hfirst, -⟩ := Text.isNameList_eq_true hname
  rw [printEntries_cons, hprint] at h
  rw [(List.cons.inj h).1] at hfirst
  exact not_mem_of_class hfirst (by decide) hclosing

theorem endsName_colon (rest : List Char) : EndsName (": ".toList ++ rest) :=
  endsName_cons (by decide)

mutual

theorem printLiteral_inj (v w : Json) (hv : v.all Json.hasNames = true)
    (hw : w.all Json.hasNames = true) {r s : List Char} (hr : Delimited r) (hs : Delimited s)
    (h : printLiteral v ++ r = printLiteral w ++ s) : v = w ∧ r = s := by
  have hform := literalForm_eq h
  match v with
  | .null =>
    obtain rfl := null_of_form hform
    exact ⟨rfl, List.append_cancel_left h⟩
  | .bool b =>
    obtain rfl := bool_of_form hform
    exact ⟨rfl, List.append_cancel_left h⟩
  | .number n =>
    obtain ⟨m, rfl⟩ := number_of_form hform
    obtain ⟨rfl, hrest⟩ := Json.printNumber_inj hr hs h
    exact ⟨rfl, hrest⟩
  | .string a =>
    obtain ⟨b, rfl, hvariable⟩ := string_of_form hform
    simp only [printLiteral, hvariable] at h
    split_ifs at h with hname
    · obtain ⟨hb, hbname⟩ := isVariable_eq_true (hvariable.trans hname)
      obtain ⟨ha, haname⟩ := isVariable_eq_true hname
      rw [ha, hb] at h
      obtain ⟨htail, hrest⟩ := name_inj haname hbname hr.endsName hs.endsName (List.cons.inj h).2
      have hab : a.toList = b.toList := by rw [ha, hb, htail]
      exact ⟨congrArg Json.string (String.toList_injective hab), hrest⟩
    · obtain ⟨hab, hrest⟩ := Json.printString_inj h
      exact ⟨congrArg Json.string (String.toList_injective hab), hrest⟩
  | .array items =>
    obtain ⟨others, rfl⟩ := array_of_form hform
    simp only [printLiteral, List.cons_append, List.append_assoc, List.nil_append] at h
    obtain ⟨rfl, hrest⟩ := printItems_inj items others (Json.all_array hv) (Json.all_array hw)
      (List.cons.inj h).2
    exact ⟨rfl, hrest⟩
  | .object fields =>
    obtain ⟨others, rfl⟩ := object_of_form hform
    simp only [printLiteral, List.cons_append, List.append_assoc, List.nil_append] at h
    obtain ⟨rfl, hrest⟩ := printEntries_inj fields others (Json.all_self hv) (Json.all_object hv)
      (Json.all_self hw) (Json.all_object hw) (by decide) (List.cons.inj h).2
    exact ⟨rfl, hrest⟩

theorem printItems_inj (xs ys : List Json) (hxs : Json.allItems Json.hasNames xs = true)
    (hys : Json.allItems Json.hasNames ys = true) {r s : List Char}
    (h : printItems xs ++ ']' :: r = printItems ys ++ ']' :: s) : xs = ys ∧ r = s := by
  match xs, ys with
  | [], [] => exact ⟨rfl, (List.cons.inj h).2⟩
  | [], y :: ys => exact absurd h.symm (printItems_ne y ys s r)
  | x :: xs, [] => exact absurd h (printItems_ne x xs r s)
  | x :: xs, y :: ys =>
    obtain ⟨hx, hxs'⟩ := Json.allItems_cons hxs
    obtain ⟨hy, hys'⟩ := Json.allItems_cons hys
    rw [printItems_cons, printItems_cons] at h
    obtain ⟨rfl, hbehind⟩ := printLiteral_inj x y hx hy (delimited_behind (by decide))
      (delimited_behind (by decide)) h
    obtain ⟨rfl, hrest⟩ := printItems_inj xs ys hxs' hys'
      (behind_inj (by decide) printItems_of_isEmpty printItems_of_isEmpty hbehind)
    exact ⟨rfl, hrest⟩

theorem printEntries_inj (xs ys : List (String × Json))
    (hxnames : Json.hasNames (.object xs) = true) (hxs : Json.allFields Json.hasNames xs = true)
    (hynames : Json.hasNames (.object ys) = true) (hys : Json.allFields Json.hasNames ys = true)
    {closing : Char} (hclosing : closing ∈ [')', ']', '}']) {r s : List Char}
    (h : printEntries xs ++ closing :: r = printEntries ys ++ closing :: s) : xs = ys ∧ r = s := by
  match xs, ys with
  | [], [] => exact ⟨rfl, (List.cons.inj h).2⟩
  | [], (name, value) :: ys =>
    obtain ⟨hname, -⟩ := Bool.and_eq_true_iff.mp hynames
    exact absurd h.symm (printEntries_ne hname value ys hclosing s r)
  | (name, value) :: xs, [] =>
    obtain ⟨hname, -⟩ := Bool.and_eq_true_iff.mp hxnames
    exact absurd h (printEntries_ne hname value xs hclosing r s)
  | (name, value) :: xs, (name', value') :: ys =>
    obtain ⟨hname, hxnames'⟩ := Bool.and_eq_true_iff.mp hxnames
    obtain ⟨hname', hynames'⟩ := Bool.and_eq_true_iff.mp hynames
    obtain ⟨hvalue, hxs'⟩ := Json.allFields_cons hxs
    obtain ⟨hvalue', hys'⟩ := Json.allFields_cons hys
    have hne : closing ≠ ',' := by
      rintro rfl
      revert hclosing
      decide
    rw [printEntries_cons, printEntries_cons] at h
    obtain ⟨hnames, hmore⟩ := name_inj hname hname' (endsName_colon _) (endsName_colon _) h
    obtain rfl := String.toList_injective hnames
    obtain ⟨rfl, hbehind⟩ := printLiteral_inj value value' hvalue hvalue'
      (delimited_behind hclosing) (delimited_behind hclosing) (List.append_cancel_left hmore)
    obtain ⟨rfl, hrest⟩ := printEntries_inj xs ys hxnames' hxs' hynames' hys' hclosing
      (behind_inj hne printEntries_of_isEmpty printEntries_of_isEmpty hbehind)
    exact ⟨rfl, hrest⟩

end

end Document

end GraphQLClient
