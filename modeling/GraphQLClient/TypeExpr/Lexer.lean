import GraphQLClient.Text.Utf8
import GraphQLClient.TypeExpr.Parser

/-!
# Tokens from bytes

The tokens of an expression as its bytes give them. Names and the marks of an expression are read
byte by byte, and what has no place in one is skipped by whole characters, which can be cut off only
where one of them begins. Offsets are words of 32 bits. Where one does not fit, or a character would
be cut, there is no result.
-/
namespace GraphQLClient.TypeExpr

structure Lexeme where
  kind : TokenKind
  span : Text.Span
  deriving DecidableEq, Repr

namespace Lexeme

def text (t : Lexeme) (source : String) : String := t.span.slice source

end Lexeme

def Token.lexeme (t : Token) : Lexeme := ⟨t.kind, t.span⟩

def offsetLimit : Nat := 4294967296

def isNameStartByte (b : UInt8) : Bool :=
  (0x61 ≤ b && b ≤ 0x7A) || (0x41 ≤ b && b ≤ 0x5A) || b == 0x5F

def isNameByte (b : UInt8) : Bool := isNameStartByte b || (0x30 ≤ b && b ≤ 0x39)

theorem isNameByte_of_isNameStartByte {b : UInt8} (h : isNameStartByte b = true) :
    isNameByte b = true := by
  rw [isNameByte, h, Bool.true_or]

def byteKind (b : UInt8) : TokenKind :=
  if b = 0x5B then .openBracket
  else if b = 0x5D then .closeBracket
  else if b = 0x21 then .bang
  else if isNameStartByte b then .name
  else .unexpected

theorem byteKind_ne_stop (b : UInt8) : byteKind b ≠ .stop := by
  unfold byteKind
  repeat' split
  all_goals exact TokenKind.noConfusion

theorem isNameStartByte_of_byteKind {b : UInt8} (h : byteKind b = .name) :
    isNameStartByte b = true := by
  unfold byteKind at h
  repeat' split at h
  all_goals first | assumption | cases h

structure Lexer where
  source : String
  pos : Nat
  deriving DecidableEq, Repr

namespace Lexer

variable {l next : Lexer} {b : UInt8} {width : Nat}

def new (source : String) : Lexer := ⟨source, 0⟩

def bytes (l : Lexer) : List UInt8 := Text.Utf8.encode l.source.toList

def peek? (l : Lexer) : Option UInt8 := l.bytes[l.pos]?

def move? (l : Lexer) (width : Nat) : Option Lexer :=
  if l.pos + width < offsetLimit then some { l with pos := l.pos + width } else none

def advance? (l : Lexer) : Option Lexer := l.move? 1

def left (l : Lexer) : Nat := l.bytes.length - l.pos

/-- The same expression has been read on, by this many bytes at least. -/
structure Ahead (l : Lexer) (width : Nat) (next : Lexer) : Prop where
  source : next.source = l.source
  pos : l.pos + width ≤ next.pos

theorem Ahead.left_lt (h : l.Ahead 1 next) (hb : l.peek? = some b) : next.left < l.left := by
  obtain ⟨hlt, -⟩ := List.getElem?_eq_some_iff.mp hb
  have hpos := h.pos
  rw [left, left, bytes, h.source, ← bytes]
  omega

theorem ahead_of_move? (h : l.move? width = some next) : l.Ahead width next := by
  unfold move? at h
  split at h
  · cases h
    exact ⟨rfl, Nat.le_refl _⟩
  · cases h

def scanName? (l : Lexer) : Option Lexer :=
  match _hb : l.peek? with
  | none => some l
  | some b =>
    if isNameByte b then
      match _hnext : l.advance? with
      | none => none
      | some next => next.scanName?
    else some l
  termination_by l.left
  decreasing_by exact (ahead_of_move? _hnext).left_lt _hb

theorem scanName?_end (hb : l.peek? = none) : l.scanName? = some l := by
  rw [scanName?.eq_def]
  split
  · rfl
  · rename_i hsome
    cases hsome.symm.trans hb

theorem scanName?_other (hb : l.peek? = some b) (hname : ¬ isNameByte b) :
    l.scanName? = some l := by
  rw [scanName?.eq_def]
  split
  · rfl
  · rename_i hsome
    cases hsome.symm.trans hb
    rw [if_neg hname]

theorem scanName?_name (hb : l.peek? = some b) (hname : isNameByte b) :
    l.scanName? = l.advance?.bind scanName? := by
  rw [scanName?.eq_def]
  split
  · rename_i hnone
    cases hnone.symm.trans hb
  · rename_i hsome
    cases hsome.symm.trans hb
    rw [if_pos hname]
    split
    all_goals rename_i hnext; rw [hnext]; rfl

def skipChar? (l : Lexer) : Option Lexer := do
  let (_, rest) ← Text.splitBytes l.pos l.source.toList
  l.move? (rest.head?.elim 1 Char.utf8Size)

def consume? (l : Lexer) : TokenKind → Option Lexer
  | .openBracket | .closeBracket | .bang => l.advance?
  | .name => l.scanName?
  | .unexpected => l.skipChar?
  | .stop => some l

/-- The next token, which is that of the end for ever once there is nothing more. -/
def nextToken? (l : Lexer) : Option (Lexeme × Lexer) :=
  match l.peek? with
  | none => some (⟨.stop, ⟨l.pos, l.pos⟩⟩, l)
  | some b => do
    let next ← l.consume? (byteKind b)
    return (⟨byteKind b, ⟨l.pos, next.pos⟩⟩, next)

section Progress

theorem ahead_of_scanName? (h : l.scanName? = some next) : l.Ahead 0 next := by
  fun_induction scanName? l with
  | case1 | case4 =>
    cases h
    exact ⟨rfl, Nat.le_refl _⟩
  | case2 => cases h
  | case3 l b _ _ mid hmid ih =>
    have hstep := ahead_of_move? hmid
    exact ⟨(ih h).source.trans hstep.source, Nat.le_trans (Nat.le_of_succ_le hstep.pos) (ih h).pos⟩

/-- A name that begins at the next byte takes this byte at least. -/
theorem ahead_of_scanName?_name (hb : l.peek? = some b) (hname : isNameByte b = true)
    (h : l.scanName? = some next) : l.Ahead 1 next := by
  rw [scanName?_name hb hname] at h
  obtain ⟨mid, hmid, hrest⟩ := Option.bind_eq_some_iff.mp h
  have hstep := ahead_of_move? hmid
  have hscan := ahead_of_scanName? hrest
  exact ⟨hscan.source.trans hstep.source, Nat.le_trans hstep.pos hscan.pos⟩

theorem ahead_of_skipChar? (h : l.skipChar? = some next) : l.Ahead 1 next := by
  obtain ⟨⟨_, rest⟩, -, hmove⟩ := Option.bind_eq_some_iff.mp h
  have hstep := ahead_of_move? hmove
  refine ⟨hstep.source, Nat.le_trans (Nat.add_le_add_left ?_ _) hstep.pos⟩
  cases rest with
  | nil => exact Nat.le_refl 1
  | cons c _ => exact c.utf8Size_pos

theorem ahead_of_consume? (hb : l.peek? = some b) (h : l.consume? (byteKind b) = some next) :
    l.Ahead 1 next := by
  cases hkind : byteKind b with
  | openBracket | closeBracket | bang =>
    rw [hkind] at h
    exact ahead_of_move? h
  | name =>
    rw [hkind] at h
    exact ahead_of_scanName?_name hb (isNameByte_of_isNameStartByte
      (isNameStartByte_of_byteKind hkind)) h
  | unexpected =>
    rw [hkind] at h
    exact ahead_of_skipChar? h
  | stop => exact absurd hkind (byteKind_ne_stop b)

/-- Every token but that of the end takes bytes. -/
theorem left_lt_of_nextToken? {token : Lexeme} (h : l.nextToken? = some (token, next))
    (hkind : token.kind ≠ .stop) :
    next.left < l.left := by
  unfold nextToken? at h
  split at h
  · cases h
    exact absurd rfl hkind
  · rename_i b hb
    obtain ⟨next', hconsume, h⟩ := Option.bind_eq_some_iff.mp h
    cases h
    exact (ahead_of_consume? hb hconsume).left_lt hb

end Progress

def tokenize? (l : Lexer) : Option (List Lexeme) :=
  match _hnext : l.nextToken? with
  | none => none
  | some (token, next) =>
    if _hkind : token.kind = .stop then some [token] else next.tokenize?.map (token :: ·)
  termination_by l.left
  decreasing_by exact left_lt_of_nextToken? _hnext _hkind

theorem tokenize?_of_nextToken? {token : Lexeme} (h : l.nextToken? = some (token, next)) :
    l.tokenize? = if token.kind = .stop then some [token] else next.tokenize?.map (token :: ·) := by
  rw [tokenize?.eq_def]
  split
  · rename_i hnone
    cases hnone.symm.trans h
  · rename_i hsome
    cases hsome.symm.trans h
    rfl

end Lexer

end GraphQLClient.TypeExpr
