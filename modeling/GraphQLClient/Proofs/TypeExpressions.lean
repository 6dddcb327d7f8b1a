import GraphQLClient.Proofs.ExpressionGrammar
import GraphQLClient.Proofs.Outcomes
import GraphQLClient.TypeExpr.Parser
import Mathlib.Data.List.TakeWhile
import Mathlib.Tactic.Common

/-!
# Reading type expressions

The tokens of a text hold all of its characters. What is read of them is a name under brackets and
bangs and nothing else, and a text that is no such expression is refused behind its longest
beginning of one.
-/
namespace GraphQLClient

namespace Text

@[simp] theorem byteLength_append (front back : List Char) :
    byteLength (front ++ back) = byteLength front + byteLength back := by
  induction front with
  | nil => simp [byteLength]
  | cons c front ih =>
    rw [List.cons_append, byteLength, byteLength, ih]
    omega

/-- The first character of the rest of a text from byte `start` on, or its end. -/
def Span.first (start : Nat) (rest : List Char) : Span := ⟨start, start + byteLength (rest.take 1)⟩

end Text

namespace TypeExpr

open Outcome Stage

variable {start stop : Nat} {cs rest : List Char}

def NoNameChar (rest : List Char) : Prop := ∀ c ∈ rest.head?, Text.isNameChar c = false

theorem NoNameChar.ends (h : NoNameChar rest) :
    rest.takeWhile Text.isNameChar = [] ∧ rest.dropWhile Text.isNameChar = rest := by
  cases rest with
  | nil => exact ⟨rfl, rfl⟩
  | cons c more => simp [h c rfl]

theorem noNameChar_dropWhile (cs : List Char) : NoNameChar (cs.dropWhile Text.isNameChar) := by
  intro c hc
  have hhead := List.head?_dropWhile_not Text.isNameChar cs
  rw [Option.mem_def.mp hc] at hhead
  simpa using hhead

theorem isNameList_takeWhile {c : Char} (hc : Text.isNameStart c = true) (cs : List Char) :
    Text.isNameList (c :: cs.takeWhile Text.isNameChar) = true := by
  simp only [Text.isNameList, hc, Bool.true_and, List.all_eq_true]
  exact fun d hd => List.mem_takeWhile_imp hd

theorem noNameChar_bang (nullable : Bool) (h : NoNameChar rest) :
    NoNameChar ((TypeRef.bang nullable).toList ++ rest) := by
  cases nullable with
  | true => exact h
  | false =>
    rintro c ⟨⟩
    decide

section Tokens

def kindOf (c : Char) : TokenKind := if Text.isNameStart c then .name else singleKind c

theorem kindOf_eq_name_iff {c : Char} : kindOf c = .name ↔ Text.isNameStart c = true := by
  unfold kindOf singleKind
  split_ifs <;> simp_all

theorem kindOf_eq_iff {c d : Char} (hd : d = '[' ∨ d = ']' ∨ d = '!') :
    kindOf c = singleKind d ↔ c = d := by
  constructor
  · intro h
    unfold kindOf singleKind at h
    rcases hd with rfl | rfl | rfl
    all_goals split_ifs at h <;> simp_all
  · rintro rfl
    rcases hd with rfl | rfl | rfl <;> rfl

/-- The first token begins with the first character, and is a character alone if it is no name. -/
theorem scan_cons (start : Nat) (c : Char) (rest : List Char) :
    ∃ more tokens, scan start (c :: rest) = ⟨kindOf c, start, c :: more⟩ :: tokens ∧
      (Text.isNameStart c = false → more = [] ∧ tokens = scan (start + c.utf8Size) rest) := by
  rw [scan.eq_def]
  by_cases hc : Text.isNameStart c = true
  · simp only [hc, if_true, kindOf]
    exact ⟨_, _, rfl, nofun⟩
  · simp only [hc, kindOf]
    exact ⟨[], _, rfl, fun _ => ⟨rfl, rfl⟩⟩

theorem scan_mark (start : Nat) {c : Char} (hc : Text.isNameStart c = false) (rest : List Char) :
    scan start (c :: rest) = ⟨kindOf c, start, [c]⟩ :: scan (start + c.utf8Size) rest := by
  obtain ⟨more, tokens, hscan, hsingle⟩ := scan_cons start c rest
  obtain ⟨rfl, rfl⟩ := hsingle hc
  exact hscan

theorem scan_name {name : List Char} (hname : Text.isNameList name = true)
    (hrest : NoNameChar rest) :
    scan start (name ++ rest) =
      ⟨.name, start, name⟩ :: scan (start + Text.byteLength name) rest := by
  obtain ⟨first, others, rfl, hfirst, hall⟩ := Text.isNameList_eq_true hname
  have hothers : ∀ c ∈ others, Text.isNameChar c = true :=
    fun c hc => hall c (List.mem_cons_of_mem first hc)
  rw [List.cons_append, scan.eq_def]
  simp only [hfirst, if_true, List.takeWhile_append_of_pos hothers,
    List.dropWhile_append_of_pos hothers, hrest.ends, List.append_nil]

end Tokens

section Readers

theorem readName_cases (list : Bool) (hstop : start + Text.byteLength cs = stop) :
    (∃ name rest, cs = name ++ rest ∧ Text.isNameList name = true ∧ NoNameChar rest ∧
      readName stop list (scan start cs) =
        .ok (⟨.name, start, name⟩, scan (start + Text.byteLength name) rest)) ∨
    (∀ c ∈ cs.head?, Text.isNameStart c = false) ∧
      ∃ fault, readName stop list (scan start cs) = .error ⟨fault, .first start cs⟩ := by
  cases cs with
  | nil =>
    refine Or.inr ⟨nofun, if list then .missingClosing true else .missingType, ?_⟩
    rw [scan, readName, atStop, ← hstop]
    rfl
  | cons c cs =>
    by_cases hc : Text.isNameStart c = true
    · left
      have hname := isNameList_takeWhile hc cs
      have hrest := noNameChar_dropWhile cs
      have hsplit : c :: cs = (c :: cs.takeWhile Text.isNameChar) ++
          cs.dropWhile Text.isNameChar := by
        rw [List.cons_append, List.takeWhile_append_dropWhile]
      refine ⟨_, _, hsplit, hname, hrest, ?_⟩
      rw [hsplit, scan_name hname hrest]
      rfl
    · right
      rw [Bool.not_eq_true] at hc
      refine ⟨fun d hd => Option.mem_some_iff.mp hd ▸ hc, ?_⟩
      rw [scan_mark start hc]
      simp only [readName]
      split
      · rename_i hkind
        rw [kindOf_eq_name_iff.mp hkind] at hc
        cases hc
      · exact ⟨_, rfl⟩
      · exact ⟨_, rfl⟩
      · exact ⟨_, rfl⟩

theorem readBang_scan (start : Nat) (nullable : Bool)
    (h : nullable = true → ∀ c ∈ rest.head?, c ≠ '!') :
    readBang (scan start ((TypeRef.bang nullable).toList ++ rest)) =
      (nullable, scan (start + Text.byteLength (TypeRef.bang nullable).toList) rest) := by
  cases nullable with
  | false =>
    change readBang (scan start ('!' :: rest)) = _
    rw [scan_mark start (by decide)]
    rfl
  | true =>
    change readBang (scan start rest) = (true, scan start rest)
    cases rest with
    | nil =>
      rw [scan]
      rfl
    | cons c more =>
      obtain ⟨_, tokens, hscan, -⟩ := scan_cons start c more
      have hkind : kindOf c ≠ .bang := by
        intro hkind
        exact h rfl c rfl ((kindOf_eq_iff (Or.inr (Or.inr rfl))).mp hkind)
      rw [hscan, readBang, if_neg hkind]

theorem readBang_cases (start : Nat) (cs : List Char) :
    ∃ nullable rest, cs = (TypeRef.bang nullable).toList ++ rest ∧
      (nullable = true → ∀ c ∈ rest.head?, c ≠ '!') ∧
      readBang (scan start cs) =
        (nullable, scan (start + Text.byteLength (TypeRef.bang nullable).toList) rest) := by
  by_cases hbang : ∃ more, cs = '!' :: more
  · obtain ⟨more, rfl⟩ := hbang
    exact ⟨false, more, rfl, nofun, readBang_scan start false nofun⟩
  · have hnone : ∀ c ∈ cs.head?, c ≠ '!' := by
      rintro c hc rfl
      exact hbang (List.head?_eq_some_iff.mp hc)
    exact ⟨true, cs, rfl, fun _ => hnone, readBang_scan start true fun _ => hnone⟩

theorem readClosing_cases (itemsNullable : Bool) (hstop : start + Text.byteLength cs = stop) :
    (∃ rest, cs = ']' :: rest ∧
      readClosing stop itemsNullable (scan start cs) = .ok (scan (start + 1) rest)) ∨
    (∀ c ∈ cs.head?, c ≠ ']') ∧
      ∃ fault, readClosing stop itemsNullable (scan start cs) =
        .error ⟨fault, .first start cs⟩ := by
  cases cs with
  | nil =>
    refine Or.inr ⟨nofun, .missingClosing itemsNullable, ?_⟩
    rw [scan, readClosing, atStop, ← hstop]
    rfl
  | cons c cs =>
    by_cases hc : c = ']'
    · subst hc
      refine Or.inl ⟨cs, rfl, ?_⟩
      rw [scan_mark start (by decide)]
      rfl
    · right
      refine ⟨fun d hd => Option.mem_some_iff.mp hd ▸ hc, .unexpected c, ?_⟩
      obtain ⟨more, tokens, hscan, -⟩ := scan_cons start c cs
      have hkind : kindOf c ≠ .closeBracket :=
        fun hkind => hc ((kindOf_eq_iff (Or.inr (Or.inl rfl))).mp hkind)
      rw [hscan, readClosing, if_neg hkind]
      rfl

theorem readStop_cases (list : Bool) (start : Nat) (cs : List Char) :
    (cs = [] ∧ readStop list (scan start cs) = .ok ()) ∨
    cs ≠ [] ∧ ∃ fault, readStop list (scan start cs) = .error ⟨fault, .first start cs⟩ := by
  cases cs with
  | nil =>
    left
    rw [scan]
    exact ⟨rfl, rfl⟩
  | cons c cs =>
    right
    refine ⟨List.cons_ne_nil c cs, ?_⟩
    obtain ⟨more, tokens, hscan, hsingle⟩ := scan_cons start c cs
    rw [hscan]
    simp only [readStop]
    split_ifs with hclosing
    · have hc : c = ']' := (kindOf_eq_iff (Or.inr (Or.inl rfl))).mp hclosing.1
      obtain ⟨rfl, -⟩ := hsingle (hc ▸ rfl)
      exact ⟨_, rfl⟩
    · exact ⟨_, rfl⟩

def Refuses (s : Stage) (rest : List Char) : Prop := ∀ c ∈ rest.head?, s.next? c = none

def behindNamed (list nullable : Bool) : Stage :=
  if nullable then .named list else if list then .item else .ended

theorem readNamed_cases (list : Bool) (hstop : start + Text.byteLength cs = stop) :
    (∃ name nullable rest tokens, Text.isNameList name = true ∧
      cs = name ++ (TypeRef.bang nullable).toList ++ rest ∧
      (∀ c ∈ rest.head?, ¬ (c = ']' ∧ list = true) → (behindNamed list nullable).next? c = none) ∧
      readName stop list (scan start cs) = .ok (⟨.name, start, name⟩, tokens) ∧
      readBang tokens =
        (nullable, scan (start + Text.byteLength (name ++ (TypeRef.bang nullable).toList)) rest)) ∨
    (∀ c ∈ cs.head?, Text.isNameStart c = false) ∧
      ∃ fault, readName stop list (scan start cs) = .error ⟨fault, .first start cs⟩ := by
  rcases readName_cases list hstop with ⟨name, rest, rfl, hname, hrest, hread⟩ | hnone
  · obtain ⟨nullable, rest, rfl, hbang, hbangs⟩ :=
      readBang_cases (start + Text.byteLength name) rest
    rw [Nat.add_assoc, ← Text.byteLength_append] at hbangs
    refine Or.inl ⟨name, nullable, rest, _, hname, (List.append_assoc _ _ _).symm, ?_,
      hread, hbangs⟩
    intro c hc hclosing
    cases nullable with
    | true =>
      have hname : Text.isNameChar c = false := hrest c hc
      simp [behindNamed, next?, hname, hbang rfl c hc, hclosing]
    | false =>
      cases list with
      | true => simpa [behindNamed, next?] using hclosing
      | false => rfl
  · exact Or.inr hnone

theorem isNamed_bang {name : List Char} (nullable : Bool) (h : Text.isNameList name = true) :
    IsNamed (name ++ (TypeRef.bang nullable).toList) := by
  cases nullable with
  | true => exact (List.append_nil name).symm ▸ .nullable h
  | false => exact .nonNull h

theorem readSingle_cases (hstop : start + Text.byteLength cs = stop)
    (hbracket : ∀ c ∈ cs.head?, c ≠ '[') :
    (∃ name nullable, Text.isNameList name = true ∧ cs = name ++ (TypeRef.bang nullable).toList ∧
      readSingle stop (scan start cs) = .ok ⟨String.ofList name, .single nullable,
        ⟨start, start + Text.byteLength name⟩⟩) ∨
    ∃ s front rest fault, cs = front ++ rest ∧ Reaches s front ∧ Refuses s rest ∧
      readSingle stop (scan start cs) =
        .error ⟨fault, .first (start + Text.byteLength front) rest⟩ := by
  rcases readNamed_cases false hstop with
    ⟨name, nullable, rest, tokens, hname, rfl, hrest, hread, hbang⟩ | ⟨hnone, fault, hread⟩
  · rcases readStop_cases false (start + Text.byteLength (name ++ (TypeRef.bang nullable).toList))
      rest with
      ⟨rfl, hend⟩ | ⟨-, fault, hend⟩
    · refine Or.inl ⟨name, nullable, hname, List.append_nil _, ?_⟩
      simp only [readSingle, hread, bind, Except.bind, hbang, hend]
      rfl
    · refine Or.inr ⟨behindNamed false nullable, _, rest, fault, rfl, ?_, ?_, ?_⟩
      · cases nullable with
        | true => exact (List.append_nil name).symm ▸ .named hname
        | false => exact .ended hname
      · exact fun c hc => hrest c hc (fun h => nomatch h.2)
      · simp only [readSingle, hread, bind, Except.bind, hbang, hend]
  · refine Or.inr ⟨.start, [], cs, fault, rfl, .start, ?_, ?_⟩
    · intro c hc
      simp [next?, hbracket c hc, hnone c hc]
    · simp only [readSingle, hread, bind, Except.bind]
      rfl

def behindList (nullable : Bool) : Stage := if nullable then .closed else .ended

theorem readEnd_cases (start : Nat) (cs : List Char) :
    ∃ nullable rest tokens, cs = (TypeRef.bang nullable).toList ++ rest ∧
      Refuses (behindList nullable) rest ∧ readBang (scan start cs) = (nullable, tokens) ∧
      ((rest = [] ∧ readStop true tokens = .ok ()) ∨ ∃ fault, readStop true tokens =
        .error ⟨fault, .first (start + Text.byteLength (TypeRef.bang nullable).toList) rest⟩) := by
  obtain ⟨nullable, rest, rfl, hbang, hread⟩ := readBang_cases start cs
  refine ⟨nullable, rest, _, rfl, ?_, hread, ?_⟩
  · intro c hc
    cases nullable with
    | true => exact if_neg (hbang rfl c hc)
    | false => rfl
  · exact (readStop_cases true _ rest).imp id And.right

theorem readList_cases (hstop : start + Text.byteLength cs = stop) :
    (∃ name itemsNullable nullable, Text.isNameList name = true ∧
      cs = name ++ (TypeRef.bang itemsNullable).toList ++ ']' :: (TypeRef.bang nullable).toList ∧
      readList stop (scan start cs) = .ok ⟨String.ofList name, .list itemsNullable nullable,
        ⟨start, start + Text.byteLength name⟩⟩) ∨
    ∃ s front rest fault, cs = front ++ rest ∧ Reaches s ('[' :: front) ∧ Refuses s rest ∧
      readList stop (scan start cs) = .error ⟨fault,
        .first (start + Text.byteLength front) rest⟩ := by
  rcases readNamed_cases true hstop with
    ⟨name, itemsNullable, rest, tokens, hname, rfl, hrest, hread, hbang⟩ | ⟨hnone, fault, hread⟩
  · have hitems := isNamed_bang itemsNullable hname
    have hstop' : start + Text.byteLength (name ++ (TypeRef.bang itemsNullable).toList) +
        Text.byteLength rest = stop := by
      rw [← hstop, Text.byteLength_append _ rest, Nat.add_assoc]
    rcases readClosing_cases itemsNullable hstop' with
      ⟨rest, rfl, hclose⟩ | ⟨hclosing, fault, hclose⟩
    · obtain ⟨nullable, rest, tokens, rfl, hnext, hbang', ⟨rfl, hend⟩ | ⟨fault, hend⟩⟩ :=
        readEnd_cases
        (start + Text.byteLength (name ++ (TypeRef.bang itemsNullable).toList) + 1) rest
      · refine Or.inl ⟨name, itemsNullable, nullable, hname, by rw [List.append_nil], ?_⟩
        simp only [readList, hread, bind, Except.bind, hbang, hclose, hbang', hend]
        rfl
      · refine Or.inr ⟨behindList nullable, name ++ (TypeRef.bang itemsNullable).toList ++
          ']' :: (TypeRef.bang nullable).toList, rest, fault, by simp, ?_, hnext, ?_⟩
        · cases nullable with
          | true => exact .closed hitems
          | false => exact .endedList hitems
        · have hplace : start + Text.byteLength (name ++ (TypeRef.bang itemsNullable).toList) + 1 +
              Text.byteLength (TypeRef.bang nullable).toList =
                start + Text.byteLength (name ++ (TypeRef.bang itemsNullable).toList ++
                  ']' :: (TypeRef.bang nullable).toList) := by
            rw [Text.byteLength_append _ (']' :: _), Nat.add_assoc, Nat.add_assoc]
            rfl
          simp only [readList, hread, bind, Except.bind, hbang, hclose, hbang', hend, hplace]
    · refine Or.inr ⟨behindNamed true itemsNullable, _, rest, fault, rfl, ?_, ?_, ?_⟩
      · cases itemsNullable with
        | true => exact (List.append_nil name).symm ▸ .listed hname
        | false => exact .item hname
      · exact fun c hc => hrest c hc (fun h => hclosing c hc h.1)
      · simp only [readList, hread, bind, Except.bind, hbang, hclose]
  · refine Or.inr ⟨.opened, [], cs, fault, rfl, .opened, ?_, ?_⟩
    · intro c hc
      simp [next?, hnone c hc]
    · simp only [readList, hread, bind, Except.bind]
      rfl

end Readers

section Expressions

variable {e name : String} {r : TypeRef}

theorem readTokens_open (stop : Nat) (rest : List Char) :
    readTokens stop (scan 0 ('[' :: rest)) = readList stop (scan 1 rest) := by
  rw [scan_mark 0 (by decide)]
  rfl

theorem readTokens_single (stop : Nat) (h : ∀ c ∈ cs.head?, c ≠ '[') :
    readTokens stop (scan 0 cs) = readSingle stop (scan 0 cs) := by
  cases cs with
  | nil =>
    rw [scan]
    rfl
  | cons c cs =>
    obtain ⟨more, tokens, hscan, -⟩ := scan_cons 0 c cs
    have hkind : kindOf c ≠ .openBracket :=
      fun hkind => h c rfl ((kindOf_eq_iff (Or.inl rfl)).mp hkind)
    rw [hscan, readTokens, if_neg hkind]

def coreStart : Wrapping → Nat
  | .single _ => 0
  | .list _ _ => 1

/-- An expression is read as what prints as it, or refused behind its longest beginning. -/
theorem parse_cases (e : String) :
    (∃ name wrapping, Text.isName name = true ∧ parse e = .ok ⟨name, wrapping,
        ⟨coreStart wrapping, coreStart wrapping + Text.byteLength name.toList⟩⟩ ∧
      e.toList = (TypeRef.named name wrapping).print.toList) ∨
    ∃ s front rest fault, e.toList = front ++ rest ∧ Reaches s front ∧ Refuses s rest ∧
      parse e = .error ⟨fault, .first (Text.byteLength front) rest⟩ := by
  by_cases hopen : ∃ cs, e.toList = '[' :: cs
  · obtain ⟨cs, hcs⟩ := hopen
    have hstop : 1 + Text.byteLength cs = Text.byteLength e.toList := by
      rw [hcs]
      rfl
    have hparse : parse e = readList (Text.byteLength e.toList) (scan 1 cs) := by
      rw [← readTokens_open, ← hcs, parse]
    rcases readList_cases hstop with
      ⟨name, itemsNullable, nullable, hname, rfl, hread⟩ |
      ⟨s, front, rest, fault, rfl, hfront, hrest, hread⟩
    · refine Or.inl ⟨String.ofList name, .list itemsNullable nullable, ?_, ?_, ?_⟩
      · rwa [Text.isName, String.toList_ofList]
      · rw [hparse, hread, String.toList_ofList]
        rfl
      · simp [hcs, TypeRef.print, TypeRef.named]
    · refine Or.inr ⟨s, '[' :: front, rest, fault, hcs, hfront, hrest, ?_⟩
      rw [hparse, hread]
      rfl
  · have hhead : ∀ c ∈ e.toList.head?, c ≠ '[' := by
      rintro c hc rfl
      exact hopen (List.head?_eq_some_iff.mp hc)
    have hparse : parse e = readSingle (Text.byteLength e.toList) (scan 0 e.toList) := by
      rw [← readTokens_single _ hhead, parse]
    rcases readSingle_cases (Nat.zero_add _) hhead with
      ⟨name, nullable, hname, htext, hread⟩ | ⟨s, front, rest, fault, htext, hfront, hrest, hread⟩
    · refine Or.inl ⟨String.ofList name, .single nullable, ?_, ?_, ?_⟩
      · rwa [Text.isName, String.toList_ofList]
      · rw [hparse, hread, String.toList_ofList]
        rfl
      · simp [htext, TypeRef.print, TypeRef.named]
    · refine Or.inr ⟨s, front, rest, fault, htext, hfront, hrest, ?_⟩
      rw [hparse, hread, Nat.zero_add]

theorem readBang_end (start : Nat) (nullable : Bool) :
    readBang (scan start (TypeRef.bang nullable).toList) = (nullable, []) := by
  have h : readBang (scan start ((TypeRef.bang nullable).toList ++ [])) = _ :=
    readBang_scan start nullable nofun
  rwa [List.append_nil, scan] at h

theorem parse_print (hname : Text.isName name = true) (wrapping : Wrapping) :
    parse (TypeRef.named name wrapping).print = .ok ⟨name, wrapping,
      ⟨coreStart wrapping, coreStart wrapping + Text.byteLength name.toList⟩⟩ := by
  have hread : ∀ (start stop : Nat) (list : Bool) (rest : List Char), NoNameChar rest →
      readName stop list (scan start (name.toList ++ rest)) =
        .ok (⟨.name, start, name.toList⟩, scan (start + Text.byteLength name.toList) rest) := by
    intro start stop list rest hrest
    rw [scan_name hname hrest]
    rfl
  have hend : ∀ nullable, NoNameChar (TypeRef.bang nullable).toList := by
    intro nullable
    have h : NoNameChar ((TypeRef.bang nullable).toList ++ []) := noNameChar_bang nullable nofun
    rwa [List.append_nil] at h
  cases wrapping with
  | single nullable =>
    have htext : (TypeRef.named name (.single nullable)).print.toList =
        name.toList ++ (TypeRef.bang nullable).toList := by
      simp [TypeRef.print, TypeRef.named]
    obtain ⟨first, others, hfirst, hstart, -⟩ := Text.isNameList_eq_true hname
    have hhead : ∀ c ∈ (name.toList ++ (TypeRef.bang nullable).toList).head?, c ≠ '[' := by
      rw [hfirst]
      rintro c ⟨⟩ rfl
      cases hstart
    rw [parse, htext, readTokens_single _ hhead]
    simp only [readSingle, hread _ _ false _ (hend nullable), bind, Except.bind,
      readBang_end, readStop, Token.text, String.ofList_toList]
    rfl
  | list itemsNullable nullable =>
    have htext : (TypeRef.named name (.list itemsNullable nullable)).print.toList =
        '[' :: (name.toList ++ ((TypeRef.bang itemsNullable).toList ++
          ']' :: (TypeRef.bang nullable).toList)) := by
      simp [TypeRef.print, TypeRef.named]
    have hclosing : NoNameChar (']' :: (TypeRef.bang nullable).toList) := by
      rintro c ⟨⟩
      decide
    have hitems : ∀ c ∈ (']' :: (TypeRef.bang nullable).toList).head?, c ≠ '!' := by
      rintro c ⟨⟩
      decide
    have hclose : ∀ start stop, readClosing stop itemsNullable
        (scan start (']' :: (TypeRef.bang nullable).toList)) =
          .ok (scan (start + 1) (TypeRef.bang nullable).toList) := by
      intro start stop
      rw [scan_mark start (by decide)]
      rfl
    rw [parse, htext, readTokens_open]
    simp only [readList, hread _ _ true _ (noNameChar_bang itemsNullable hclosing), bind,
      Except.bind, readBang_scan _ itemsNullable fun _ => hitems, hclose, readBang_end,
      readStop, Token.text, String.ofList_toList]
    rfl

def isExprChar (c : Char) : Bool := Text.isNameChar c || c == '[' || c == ']' || c == '!'

theorem parse_core_isName (h : parse e = .ok r) : Text.isName r.core := by
  rcases parse_cases e with ⟨name, wrapping, hname, hparse, -⟩ | ⟨_, _, _, _, _, _, _, herror⟩
  · cases hparse.symm.trans h
    exact hname
  · cases herror.symm.trans h

theorem print_of_parse (h : parse e = .ok r) : r.print = e := by
  rcases parse_cases e with ⟨name, wrapping, -, hparse, htext⟩ | ⟨_, _, _, _, _, _, _, herror⟩
  · cases hparse.symm.trans h
    exact (String.toList_injective htext).symm
  · cases herror.symm.trans h

theorem isExprChar_bang (nullable : Bool) :
    ∀ c ∈ (TypeRef.bang nullable).toList, isExprChar c = true := by
  cases nullable with
  | true => nofun
  | false =>
    intro c hc
    rw [List.mem_singleton.mp hc]
    rfl

theorem parse_isExprChar (h : parse e = .ok r) : ∀ c ∈ e.toList, isExprChar c := by
  rcases parse_cases e with ⟨name, wrapping, hname, -, htext⟩ | ⟨_, _, _, _, _, _, _, herror⟩
  · have hcore : ∀ c ∈ name.toList, isExprChar c = true := by
      intro c hc
      simp [isExprChar, Text.isNameChar_of_isNameList hname c hc]
    have hbang := isExprChar_bang
    rw [htext]
    cases wrapping with
    | single nullable =>
      simp only [TypeRef.print, TypeRef.named, String.toList_append, List.forall_mem_append]
      exact ⟨hcore, hbang nullable⟩
    | list itemsNullable nullable =>
      have hopen : ∀ c ∈ "[".toList, isExprChar c = true := List.forall_mem_singleton.mpr rfl
      have hclose : ∀ c ∈ "]".toList, isExprChar c = true := List.forall_mem_singleton.mpr rfl
      simp only [TypeRef.print, TypeRef.named, String.toList_append, List.forall_mem_append]
      exact ⟨⟨⟨⟨hopen, hcore⟩, hbang itemsNullable⟩, hclose⟩, hbang nullable⟩
  · cases herror.symm.trans h

theorem parse_of_isName (h : Text.isName name) :
    ∃ span, parse name = .ok ⟨name, .single true, span⟩ := by
  have hprint : (TypeRef.named name (.single true)).print = name := String.append_empty
  have hparse := parse_print h (.single true)
  rw [hprint] at hparse
  exact ⟨_, hparse⟩

end Expressions

end TypeExpr

end GraphQLClient
