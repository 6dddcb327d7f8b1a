import GraphQLClient.Proofs.TokenReading
import GraphQLClient.Selection.Basic

/-!
# Printed arguments read back

A server reads a printed literal as the value it was printed from, and stops at its end, whatever
follows. Only a text that looks like a variable is read as that variable.
-/
namespace GraphQLClient.Document

variable {cs rest : List Char}

def BeginsToken (c : Char) : Prop := isIgnored c = false ∧ c ≠ '#'

instance (c : Char) : Decidable (BeginsToken c) :=
  inferInstanceAs (Decidable (isIgnored c = false ∧ c ≠ '#'))

/-- A class without ignored characters and without the mark of a comment. -/
theorem beginsToken_of_class {p : Char → Bool} {c : Char} (hc : p c = true)
    (hnone : ([' ', '\t', '\n', '\r', ',', '\uFEFF', '#'].all fun d => decide (p d = false)) =
      true) :
    BeginsToken c := by
  have hother := not_mem_of_class hc hnone
  simp only [List.mem_cons, List.not_mem_nil, or_false, not_or] at hother
  simp [BeginsToken, isIgnored, hother]

theorem beginsToken_of_isNameStart {c : Char} (hc : Text.isNameStart c = true) : BeginsToken c :=
  beginsToken_of_class hc (by decide)

theorem beginsToken_of_closing {c : Char} (hc : c ∈ [')', ']', '}']) : BeginsToken c :=
  beginsToken_of_class (p := fun c => decide (c ∈ [')', ']', '}'])) (decide_eq_true hc) (by decide)

theorem beginsToken_of_form {c : Char} {form : LiteralForm} (hc : formOf? c = some form) :
    BeginsToken c :=
  beginsToken_of_class (p := fun c => (formOf? c).isSome) (by rw [hc]; rfl) (by decide)

theorem skipIgnored_token {c : Char} (hc : BeginsToken c) (more : List Char) :
    skipIgnored (c :: more) = c :: more := by
  simp [skipIgnored, hc.1, hc.2]

theorem skipIgnored_blank {c : Char} (hc : isIgnored c = true) (more : List Char) :
    skipIgnored (c :: more) = skipIgnored more := by
  simp [skipIgnored, hc]

/-- The comma between two elements means nothing to a server. -/
theorem skipIgnored_behind {xs : List Char} {last : Bool} (hlast : last = true → xs = [])
    (closing : Char) (rest : List Char) :
    skipIgnored (behind xs last closing rest) = skipIgnored (xs ++ closing :: rest) := by
  cases last with
  | true => rw [hlast rfl]; rfl
  | false => exact (skipIgnored_blank rfl _).trans (skipIgnored_blank rfl _)

section Steps

variable {fuel : Nat} {c : Char} {more ds : List Char}

theorem readValue?_congr (h : skipIgnored cs = skipIgnored ds) :
    readValue? fuel cs = readValue? fuel ds := by
  cases fuel with
  | zero => rfl
  | succ fuel => rw [readValue?, readValue?, h]

theorem readItems?_congr (h : skipIgnored cs = skipIgnored ds) :
    readItems? fuel cs = readItems? fuel ds := by
  cases fuel with
  | zero => rfl
  | succ fuel => rw [readItems?, readItems?, h]

theorem readFields?_congr {closing : Char} (h : skipIgnored cs = skipIgnored ds) :
    readFields? fuel closing cs = readFields? fuel closing ds := by
  cases fuel with
  | zero => rfl
  | succ fuel => rw [readFields?, readFields?, h]

theorem readValue?_plain (hc : BeginsToken c) (hsign : c ∉ ['$', '"', '[', '{']) :
    readValue? (fuel + 1) (c :: more) =
      match readName? (c :: more) with
      | some (name, rest) => some (.ofWord name, rest)
      | none => do
        let (n, rest) ← readNumber? (c :: more)
        return (.number n, rest) := by
  simp only [List.mem_cons, List.not_mem_nil, or_false, not_or] at hsign
  obtain ⟨hvariable, htext, hlist, hobject⟩ := hsign
  rw [readValue?, skipIgnored_token hc]
  split
  · rename_i heq
    exact absurd (List.cons.inj heq).1 hvariable
  · rename_i heq
    exact absurd (List.cons.inj heq).1 htext
  · rename_i heq
    exact absurd (List.cons.inj heq).1 hlist
  · rename_i heq
    exact absurd (List.cons.inj heq).1 hobject
  · rfl

theorem readItems?_cons (hc : BeginsToken c) (hclosing : c ≠ ']') :
    readItems? (fuel + 1) (c :: more) = (do
      let (item, rest) ← readValue? fuel (c :: more)
      let (items, rest) ← readItems? fuel rest
      return (item :: items, rest)) := by
  rw [readItems?, skipIgnored_token hc]
  split
  · rename_i heq
    exact absurd (List.cons.inj heq).1 hclosing
  · rfl

theorem readFields?_cons {name : String} (hname : Text.isName name = true) {closing : Char}
    (hclosing : closing ∈ [')', ']', '}']) :
    readFields? (fuel + 1) closing (name.toList ++ (": ".toList ++ more)) = (do
      let (value, rest) ← readValue? fuel more
      let (fields, rest) ← readFields? fuel closing rest
      return ((name, value) :: fields, rest)) := by
  have hread := readName?_toList hname (endsName_colon more)
  obtain ⟨first, others, hfirst, hstart, -⟩ := Text.isNameList_eq_true hname
  have hne : first ≠ closing := by
    rintro rfl
    exact not_mem_of_class hstart (by decide) hclosing
  have hvalue : readValue? fuel (' ' :: more) = readValue? fuel more :=
    readValue?_congr (skipIgnored_blank rfl more)
  rw [hfirst, List.cons_append] at hread ⊢
  rw [readFields?, skipIgnored_token (beginsToken_of_isNameStart hstart)]
  simp only [if_neg hne, hread, Option.bind_eq_bind, Option.bind_some]
  change (readValue? fuel (' ' :: more)).bind _ = _
  rw [hvalue]

theorem readValue?_word (name : String) (hname : Text.isName name = true) (hrest : Delimited rest) :
    readValue? (fuel + 1) (name.toList ++ rest) = some (.ofWord name, rest) := by
  have hread := readName?_toList hname hrest.endsName
  obtain ⟨first, others, hfirst, hstart, -⟩ := Text.isNameList_eq_true hname
  have hsign : first ∉ ['$', '"', '[', '{'] := not_mem_of_class hstart (by decide)
  rw [hfirst, List.cons_append] at hread ⊢
  rw [readValue?_plain (beginsToken_of_isNameStart hstart) hsign, hread]

end Steps

theorem readValue?_number (n : JsonNumber) {fuel : Nat} (hrest : Delimited rest) :
    readValue? (fuel + 1) (Json.printNumber n ++ rest) = some (.number n, rest) := by
  have hread := readNumber?_printNumber n hrest
  obtain ⟨c, more, hhead, hc⟩ : ∃ c more, Json.printNumber n = c :: more ∧
      (c == '-' || c.isDigit) = true := by
    obtain ⟨d, digits, hmagnitude, hd⟩ := Json.magnitude_head n
    rw [Json.printNumber_eq, hmagnitude]
    split_ifs
    · exact ⟨'-', _, rfl, rfl⟩
    · exact ⟨d, _, rfl, by rw [hd, Bool.or_true]⟩
  have hsign : c ∉ ['$', '"', '[', '{'] :=
    not_mem_of_class (p := fun c => c == '-' || c.isDigit) hc (by decide)
  have hname : Text.isNameStart c = false := by
    have hcode : c.toNat = 45 ∨ (48 ≤ c.toNat ∧ c.toNat ≤ 57) := by
      simpa [isDigit_iff, eq_iff_toNat] using hc
    rw [← Bool.not_eq_true, Text.isNameStart_iff]
    omega
  rw [hhead, List.cons_append] at hread ⊢
  rw [readValue?_plain (beginsToken_of_class (p := fun c => c == '-' || c.isDigit) hc
    (by decide)) hsign, readName?_none hname, hread]
  rfl

theorem readValue?_text (s : String) {fuel : Nat} (hrest : Delimited rest) :
    readValue? (fuel + 1) (printLiteral (.string s) ++ rest) =
      some (.ofJson (.string s), rest) := by
  simp only [printLiteral, Literal.ofJson]
  split_ifs with hvariable
  · obtain ⟨htext, hname⟩ := isVariable_eq_true hvariable
    obtain ⟨first, others, htail, hstart, -⟩ := Text.isNameList_eq_true hname
    have hread := readName?_append hname hrest.endsName
    have hskip : skipIgnored (s.toList.tail ++ rest) = s.toList.tail ++ rest := by
      rw [htail]
      exact skipIgnored_token (beginsToken_of_isNameStart hstart) _
    rw [htext, List.cons_append, readValue?, skipIgnored_token (by decide)]
    simp only [hskip, hread, List.tail_cons]
    rfl
  · have hread := readText?_escaped s.toList hrest
    rw [Json.printString, List.cons_append, List.cons_append, List.append_assoc, readValue?,
      skipIgnored_token (by decide)]
    simp only [List.singleton_append, hread, String.ofList_toList]
    rfl

@[simp] theorem printLiteral_ne_nil (value : Json) : printLiteral value ≠ [] := by
  obtain ⟨c, more, hprint, -⟩ := printLiteral_form value
  rw [hprint]
  exact List.cons_ne_nil c more

theorem length_printItems_cons (item : Json) (items : List Json) :
    (printLiteral item).length + (printItems items).length ≤
      (printItems (item :: items)).length := by
  cases items with
  | nil => simp [printItems]
  | cons next more => simp [printItems]; omega

theorem length_printEntries_cons (name : String) (value : Json) (fields : List (String × Json)) :
    (printLiteral value).length + (printEntries fields).length + 1 ≤
      (printEntries ((name, value) :: fields)).length := by
  cases fields with
  | nil => simp [printEntries]; omega
  | cons next more => simp [printEntries]; omega

-- A step of the reader takes at least one character of the text, so the length of the text is fuel
-- enough. A list needs one step more, for the mark that closes it.
mutual

/-- A server reads a printed literal back and stops at its end. -/
theorem readValue?_printLiteral (v : Json) (fuel : Nat) (hv : v.all Json.hasNames = true)
    (hfuel : (printLiteral v).length ≤ fuel) {rest : List Char} (hrest : Delimited rest) :
    readValue? fuel (printLiteral v ++ rest) = some (.ofJson v, rest) := by
  obtain ⟨fuel, rfl⟩ : ∃ k, fuel = k + 1 := by
    have hpos := List.length_pos_iff.mpr (printLiteral_ne_nil v)
    exact ⟨fuel - 1, by omega⟩
  match v with
  | .null => exact readValue?_word "null" (by decide) hrest
  | .bool true => exact readValue?_word "true" (by decide) hrest
  | .bool false => exact readValue?_word "false" (by decide) hrest
  | .number n => exact readValue?_number n hrest
  | .string s => exact readValue?_text s hrest
  | .array items =>
    have hread := readItems?_printItems items fuel (Json.all_array hv)
      (by simpa [printLiteral] using hfuel) rest
    rw [printLiteral, List.cons_append, List.cons_append, List.append_assoc, readValue?,
      skipIgnored_token (by decide)]
    simp only [List.singleton_append, hread]
    rfl
  | .object fields =>
    have hclosing : '}' ∈ [')', ']', '}'] := by decide
    have hread := readFields?_printEntries fields fuel (Json.all_self hv) (Json.all_object hv)
      (by simpa [printLiteral] using hfuel) hclosing rest
    rw [printLiteral, List.cons_append, List.cons_append, List.append_assoc, readValue?,
      skipIgnored_token (by decide)]
    simp only [List.singleton_append, hread]
    rfl

theorem readItems?_printItems (items : List Json) (fuel : Nat)
    (hitems : Json.allItems Json.hasNames items = true)
    (hfuel : (printItems items).length + 1 ≤ fuel) (rest : List Char) :
    readItems? fuel (printItems items ++ ']' :: rest) = some (Literal.ofItems items, rest) := by
  obtain ⟨fuel, rfl⟩ : ∃ k, fuel = k + 1 := ⟨fuel - 1, by omega⟩
  match items with
  | [] => rfl
  | item :: items =>
    obtain ⟨hitem, hitems'⟩ := Json.allItems_cons hitems
    obtain ⟨c, more, hhead, hform⟩ := printLiteral_form item
    have hne : c ≠ ']' := by
      rintro rfl
      cases hform
    have hlength := length_printItems_cons item items
    have hpos := List.length_pos_iff.mpr (printLiteral_ne_nil item)
    have hbehind : Delimited (behind (printItems items) items.isEmpty ']' rest) :=
      delimited_behind (by decide)
    have hvalue := readValue?_printLiteral item fuel hitem (by omega) hbehind
    have hmore := readItems?_printItems items fuel hitems' (by omega) rest
    -- Behind the item stands a comma, which the reader of the others skips.
    rw [← readItems?_congr (skipIgnored_behind printItems_of_isEmpty ']' rest)] at hmore
    rw [printItems_cons]
    rw [hhead, List.cons_append] at hvalue ⊢
    rw [readItems?_cons (beginsToken_of_form hform) hne, hvalue]
    simp only [Option.bind_eq_bind, Option.bind_some, hmore]
    rfl

theorem readFields?_printEntries (fields : List (String × Json)) (fuel : Nat)
    (hnames : Json.hasNames (.object fields) = true)
    (hfields : Json.allFields Json.hasNames fields = true)
    (hfuel : (printEntries fields).length + 1 ≤ fuel) {closing : Char}
    (hclosing : closing ∈ [')', ']', '}']) (rest : List Char) :
    readFields? fuel closing (printEntries fields ++ closing :: rest) =
      some (Literal.ofFields fields, rest) := by
  obtain ⟨fuel, rfl⟩ : ∃ k, fuel = k + 1 := ⟨fuel - 1, by omega⟩
  match fields with
  | [] =>
    rw [readFields?, printEntries, List.nil_append,
      skipIgnored_token (beginsToken_of_closing hclosing)]
    exact if_pos rfl
  | (name, value) :: fields =>
    obtain ⟨hname, hnames'⟩ := Bool.and_eq_true_iff.mp hnames
    obtain ⟨hvalue, hfields'⟩ := Json.allFields_cons hfields
    have hlength := length_printEntries_cons name value fields
    have hbehind : Delimited (behind (printEntries fields) fields.isEmpty closing rest) :=
      delimited_behind hclosing
    have hread := readValue?_printLiteral value fuel hvalue (by omega) hbehind
    have hmore := readFields?_printEntries fields fuel hnames' hfields' (by omega) hclosing rest
    rw [← readFields?_congr (skipIgnored_behind printEntries_of_isEmpty closing rest)] at hmore
    rw [printEntries_cons, readFields?_cons hname hclosing, hread]
    simp only [Option.bind_eq_bind, Option.bind_some, hmore]
    rfl

end

section Arguments

variable {entries : List (String × Json)}

def OpensNoArguments (rest : List Char) : Prop := ∃ c more, skipIgnored rest = c :: more ∧ c ≠ '('

theorem readArguments?_nothing (hrest : OpensNoArguments rest) :
    readArguments? rest = some ([], rest) := by
  obtain ⟨c, more, hskip, hc⟩ := hrest
  unfold readArguments?
  split
  · rename_i heq
    exact absurd (List.cons.inj (hskip.symm.trans heq)).1 hc
  · rfl

theorem readArguments?_object (hne : entries ≠ []) (hnames : Json.hasNames (.object entries) = true)
    (hinside : Json.allFields Json.hasNames entries = true) (rest : List Char) :
    readArguments? (printArguments (some (.object entries)) ++ rest) =
      some (Literal.ofFields entries, rest) := by
  cases entries with
  | nil => exact absurd rfl hne
  | cons entry entries =>
    obtain ⟨name, value⟩ := entry
    have hclosing : ')' ∈ [')', ']', '}'] := by decide
    have hread := readFields?_printEntries ((name, value) :: entries)
      ((printEntries ((name, value) :: entries) ++ ')' :: rest).length + 1) hnames hinside
      (by simp only [List.length_append]; omega) hclosing rest
    have htext : printArguments (some (.object ((name, value) :: entries))) ++ rest =
        '(' :: (printEntries ((name, value) :: entries) ++ ')' :: rest) := by simp [printArguments]
    rw [htext, readArguments?, skipIgnored_token (by decide)]
    simp only [hread]
    rfl

/-- A server reads printed arguments back, and nothing of what stands behind them. -/
theorem readArguments?_printArguments {given : Option Json}
    (hgiven : SelectionCheck.argumentEntries given = .ok entries)
    (hnames : Json.hasNames (.object entries) = true)
    (hinside : Json.allFields Json.hasNames entries = true) (hrest : OpensNoArguments rest) :
    readArguments? (printArguments given ++ rest) = some (Literal.ofFields entries, rest) := by
  cases given with
  | none =>
    cases hgiven
    exact readArguments?_nothing hrest
  | some value =>
    cases value with
    | object fields =>
      obtain rfl : fields = entries := Except.ok.inj hgiven
      by_cases hempty : fields = []
      · subst hempty
        exact readArguments?_nothing hrest
      · exact readArguments?_object hempty hnames hinside rest
    | _ => cases hgiven

end Arguments

/-- A value that is no text with the look of a variable. -/
def isConstant : Json → Bool
  | .string s => !isVariable s.toList
  | _ => true

mutual

/-- Without variables, a literal says the value that it stands for. -/
theorem toJson?_ofJson (v : Json) (hv : v.all isConstant = true) :
    (Literal.ofJson v).toJson? = some v := by
  match v with
  | .null => rfl
  | .bool b => rfl
  | .number n => rfl
  | .string s =>
    have hvariable : isVariable s.toList = false := by simpa [isConstant] using Json.all_self hv
    rw [Literal.ofJson, hvariable]
    rfl
  | .array items =>
    rw [Literal.ofJson, Literal.toJson?, toItems?_ofItems items (Json.all_array hv)]; rfl
  | .object fields =>
    rw [Literal.ofJson, Literal.toJson?, toFields?_ofFields fields (Json.all_object hv)]
    rfl

theorem toItems?_ofItems (items : List Json) (hitems : Json.allItems isConstant items = true) :
    Literal.toItems? (Literal.ofItems items) = some items := by
  match items with
  | [] => rfl
  | item :: items =>
    obtain ⟨hitem, hitems'⟩ := Json.allItems_cons hitems
    rw [Literal.ofItems, Literal.toItems?, toJson?_ofJson item hitem,
      toItems?_ofItems items hitems']
    rfl

theorem toFields?_ofFields (fields : List (String × Json))
    (hfields : Json.allFields isConstant fields = true) :
    Literal.toFields? (Literal.ofFields fields) = some fields := by
  match fields with
  | [] => rfl
  | (name, value) :: fields =>
    obtain ⟨hvalue, hfields'⟩ := Json.allFields_cons hfields
    rw [Literal.ofFields, Literal.toFields?, toJson?_ofJson value hvalue,
      toFields?_ofFields fields hfields']
    rfl

end

end GraphQLClient.Document
