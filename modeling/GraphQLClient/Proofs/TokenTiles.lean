import GraphQLClient.Proofs.CharacterClasses
import GraphQLClient.Proofs.ExpressionReading
import GraphQLClient.Proofs.TextEncoding
import GraphQLClient.TypeExpr.Lexer
import Mathlib.Data.List.Chain

/-!
# Tokens tile their text

The bytes of an expression give the tokens of its characters. Whenever a token begins, the scanner
stands between two characters, so none is cut. The tokens lie side by side from the first byte to
the last, and a name ends only where no character goes on with it.
-/
namespace GraphQLClient

namespace Text

namespace Utf8

variable {c d : Char}

@[simp] theorem length_encode (cs : List Char) : (encode cs).length = byteLength cs := by
  induction cs with
  | nil => rfl
  | cons c cs ih =>
    rw [encode, List.flatMap_cons, List.length_append, ← encode, ih, String.length_utf8EncodeChar,
      byteLength]

def leadByte (c : Char) : UInt8 := (String.utf8EncodeChar c).headD 0

theorem encodeChar_cons (c : Char) : ∃ tails, String.utf8EncodeChar c = leadByte c :: tails := by
  rw [leadByte, encodeChar_eq, bytesOf]
  split_ifs
  all_goals exact ⟨_, rfl⟩

theorem head?_encode (c : Char) (rest : List Char) :
    (encode (c :: rest)).head? = some (leadByte c) := by
  obtain ⟨tails, htails⟩ := encodeChar_cons c
  rw [encode, List.flatMap_cons, htails]
  rfl

/-- Below 128 a byte tells its character, and from there on it is no character by itself. -/
theorem toNat_leadByte (c : Char) :
    (leadByte c).toNat = c.toNat ∨ 128 ≤ (leadByte c).toNat ∧ 128 ≤ c.toNat := by
  by_cases hlow : (leadByte c).toNat < 128
  · obtain ⟨tails, htails⟩ := encodeChar_cons c
    have hmem : leadByte c ∈ bytesOf c.toNat := by
      rw [← encodeChar_eq, htails]
      exact List.mem_cons_self
    exact Or.inl (eq_of_mem_bytesOf hmem hlow)
  · by_cases hascii : c.toNat ≤ 127
    · left
      rw [leadByte, encodeChar_eq, bytesOf, if_pos hascii]
      exact toNat_byte (by omega)
    · exact Or.inr ⟨by omega, by omega⟩

theorem leadByte_eq_iff (hd : d.toNat ≤ 127) : leadByte c = .ofNat d.toNat ↔ c = d := by
  have hlead := toNat_leadByte c
  have hbyte := toNat_byte (n := d.toNat) (by omega)
  rw [← UInt8.toNat_inj, hbyte, eq_iff_toNat]
  omega

end Utf8

theorem utf8Size_of_isNameChar {c : Char} (h : isNameChar c = true) : c.utf8Size = 1 := by
  rw [isNameChar_iff, isNameStart_iff, isDigit_iff] at h
  rw [Char.utf8Size_eq_one_iff, UInt32.le_iff_toNat_le]
  change c.toNat ≤ 127
  omega

end Text

namespace TypeExpr

open Text Text.Utf8

section Bytes

theorem isNameStartByte_leadByte (c : Char) : isNameStartByte (leadByte c) = isNameStart c := by
  have hlead := toNat_leadByte c
  rw [Bool.eq_iff_iff, isNameStart_iff]
  simp only [isNameStartByte, Bool.or_eq_true, Bool.and_eq_true, decide_eq_true_eq, beq_iff_eq,
    UInt8.le_iff_toNat_le, ← UInt8.toNat_inj]
  change (97 ≤ (leadByte c).toNat ∧ (leadByte c).toNat ≤ 122 ∨
    65 ≤ (leadByte c).toNat ∧ (leadByte c).toNat ≤ 90) ∨ (leadByte c).toNat = 95 ↔ _
  omega

theorem isNameByte_leadByte (c : Char) : isNameByte (leadByte c) = isNameChar c := by
  have hlead := toNat_leadByte c
  rw [Bool.eq_iff_iff, isNameChar_iff, isDigit_iff, ← isNameStartByte_leadByte]
  simp only [isNameByte, Bool.or_eq_true, Bool.and_eq_true, decide_eq_true_eq,
    UInt8.le_iff_toNat_le]
  refine or_congr_right ?_
  change 48 ≤ (leadByte c).toNat ∧ (leadByte c).toNat ≤ 57 ↔ _
  omega

theorem byteKind_leadByte (c : Char) : byteKind (leadByte c) = kindOf c := by
  have hopen : leadByte c = 0x5B ↔ c = '[' := leadByte_eq_iff (d := '[') (by decide)
  have hclose : leadByte c = 0x5D ↔ c = ']' := leadByte_eq_iff (d := ']') (by decide)
  have hbang : leadByte c = 0x21 ↔ c = '!' := leadByte_eq_iff (d := '!') (by decide)
  simp only [byteKind, hopen, hclose, hbang, isNameStartByte_leadByte]
  by_cases hname : isNameStart c = true
  · have hmarks : c ∉ ['[', ']', '!'] := not_mem_of_class hname (by decide)
    simp only [List.mem_cons, List.not_mem_nil, or_false, not_or] at hmarks
    rw [kindOf, if_pos hname, if_neg hmarks.1, if_neg hmarks.2.1, if_neg hmarks.2.2, if_pos hname]
  · simp only [kindOf, singleKind, if_neg hname]

end Bytes

section Laid

/-- The texts of the tokens of a kind. -/
def TokenKind.Spells : TokenKind → List Char → Prop
  | .name, cs => isNameList cs = true
  | .openBracket, cs => cs = ['[']
  | .closeBracket, cs => cs = [']']
  | .bang, cs => cs = ['!']
  | .unexpected, cs => ∃ c, cs = [c] ∧ c ∉ ['[', ']', '!'] ∧ isNameStart c = false
  | .stop, cs => cs = []

inductive Laid : Nat → List Char → List Token → Prop where
  | stop (start : Nat) : Laid start [] [⟨.stop, start, []⟩]
  | token {start : Nat} {kind : TokenKind} {read rest : List Char} {tokens : List Token}
      (hkind : kind ≠ .stop)
      (hspells : kind.Spells read) (hname : kind = .name → NoNameChar rest)
      (hrest : Laid (start + byteLength read) rest tokens) :
      Laid start (read ++ rest) (⟨kind, start, read⟩ :: tokens)

variable {kind : TokenKind} {start : Nat} {cs read rest : List Char}
  {tokens : List Token} {t : Token}

theorem spells_kindOf {c : Char} (hname : isNameStart c = false) : (kindOf c).Spells [c] := by
  unfold kindOf singleKind
  split_ifs with h hopen hclose hbang
  · cases hname.symm.trans h
  · exact congrArg (fun d => [d]) hopen
  · exact congrArg (fun d => [d]) hclose
  · exact congrArg (fun d => [d]) hbang
  · exact ⟨c, rfl, by simp [hopen, hclose, hbang], hname⟩

/-- Only the end is spelled by nothing. Any other token begins with a character of its kind. -/
theorem TokenKind.Spells.cons (h : kind.Spells read) (hkind : kind ≠ .stop) :
    ∃ c more, read = c :: more ∧ kindOf c = kind := by
  cases kind with
  | name =>
    obtain ⟨c, more, rfl, hc, -⟩ := isNameList_eq_true h
    exact ⟨c, more, rfl, kindOf_eq_name_iff.mpr hc⟩
  | openBracket | closeBracket | bang => exact ⟨_, [], h, rfl⟩
  | unexpected =>
    obtain ⟨c, rfl, hmarks, hc⟩ := h
    simp only [List.mem_cons, List.not_mem_nil, or_false, not_or] at hmarks
    refine ⟨c, [], rfl, ?_⟩
    rw [kindOf, if_neg (Bool.not_eq_true _ ▸ hc), singleKind, if_neg hmarks.1, if_neg hmarks.2.1,
      if_neg hmarks.2.2]
  | stop => exact absurd rfl hkind

theorem noNameChar_of_append (h : NoNameChar (read ++ rest)) : NoNameChar read := by
  cases read with
  | nil => exact nofun
  | cons c more => exact h

theorem scan_laid (start : Nat) (cs : List Char) :
    Laid start cs (scan start cs ++ [⟨.stop, start + byteLength cs, []⟩]) := by
  fun_induction scan start cs with
  | case1 start => exact .stop start
  | case2 start c rest hc name ih =>
    have hsplit : c :: rest = name ++ rest.dropWhile isNameChar := by
      rw [List.cons_append, List.takeWhile_append_dropWhile]
    rw [hsplit, byteLength_append, ← Nat.add_assoc]
    exact .token (by decide) (isNameList_takeWhile hc rest) (fun _ => noNameChar_dropWhile rest) ih
  | case3 start c rest hc ih =>
    rw [Bool.not_eq_true] at hc
    have hkind : singleKind c = kindOf c := by rw [kindOf, if_neg (Bool.not_eq_true _ ▸ hc)]
    have hspells := spells_kindOf hc
    rw [byteLength, ← Nat.add_assoc, hkind]
    change Laid start ([c] ++ rest) _
    refine .token ?_ hspells ?_ ih
    · intro hstop
      rw [hstop] at hspells
      cases hspells
    · intro hname
      rw [kindOf_eq_name_iff.mp hname] at hc
      cases hc

theorem tokenize_laid (cs : List Char) : Laid 0 cs (tokenize cs) := by
  have hlaid := scan_laid 0 cs
  rwa [Nat.zero_add] at hlaid

namespace Laid

theorem contiguous (h : Laid start cs tokens) :
    tokens.map Token.start ++ [start + byteLength cs] = start :: tokens.map (·.span.stop) := by
  induction h with
  | stop start => rfl
  | @token start kind read rest tokens _ _ _ _ ih =>
    rw [byteLength_append, ← Nat.add_assoc, List.map_cons, List.cons_append, ih]
    rfl

theorem place (h : Laid start cs tokens) (ht : t ∈ tokens) :
    ∃ front back, cs = front ++ (t.chars ++ back) ∧ t.start = start + byteLength front := by
  induction h with
  | stop start =>
    cases List.mem_singleton.mp ht
    exact ⟨[], [], rfl, rfl⟩
  | @token start kind read rest tokens _ _ _ _ ih =>
    rcases List.mem_cons.mp ht with rfl | ht
    · exact ⟨[], rest, rfl, rfl⟩
    · obtain ⟨front, back, rfl, hstart⟩ := ih ht
      refine ⟨read ++ front, back, (List.append_assoc _ _ _).symm, ?_⟩
      simp [hstart, Nat.add_assoc]

theorem spells (h : Laid start cs tokens) (ht : t ∈ tokens) : t.kind.Spells t.chars := by
  induction h with
  | stop start =>
    cases List.mem_singleton.mp ht
    rfl
  | token _ hspells _ _ ih =>
    rcases List.mem_cons.mp ht with rfl | ht
    · exact hspells
    · exact ih ht

theorem joined (h : Laid start cs tokens) : tokens.flatMap Token.chars = cs := by
  induction h with
  | stop start => rfl
  | token _ _ _ _ ih => rw [List.flatMap_cons, ih]

theorem last (h : Laid start cs tokens) :
    ∃ front, tokens = front ++ [⟨.stop, start + byteLength cs, []⟩] ∧
      ∀ t ∈ front, t.kind ≠ .stop := by
  induction h with
  | stop start => exact ⟨[], rfl, nofun⟩
  | @token start kind read rest tokens hkind _ _ _ ih =>
    obtain ⟨front, rfl, hfront⟩ := ih
    refine ⟨⟨kind, start, read⟩ :: front, ?_, List.forall_mem_cons.mpr ⟨hkind, hfront⟩⟩
    rw [byteLength_append, ← Nat.add_assoc, List.cons_append]

theorem head_noNameChar (h : Laid start cs tokens) (hnone : NoNameChar cs) (ht : t ∈ tokens.head?) :
    NoNameChar t.chars := by
  cases h with
  | stop =>
    cases ht
    exact nofun
  | token =>
    cases ht
    exact noNameChar_of_append hnone

/-- Behind a name there is no other, nor a character that would go on with it. -/
theorem maximal (h : Laid start cs tokens) :
    tokens.IsChain fun t next => t.kind = .name → next.kind ≠ .name ∧ NoNameChar next.chars := by
  induction h with
  | stop => exact List.isChain_singleton _
  | @token start kind read rest tokens _ _ hname hrest ih =>
    refine List.isChain_cons.mpr ⟨?_, ih⟩
    intro next hnext hkind
    have hnone := hrest.head_noNameChar (hname hkind) hnext
    refine ⟨?_, hnone⟩
    intro hnextkind
    have hspells := hrest.spells (List.mem_of_mem_head? hnext)
    rw [hnextkind] at hspells
    obtain ⟨c, more, hchars, hc, -⟩ := isNameList_eq_true hspells
    rw [hchars] at hnone
    cases (isNameChar_of_isNameStart hc).symm.trans (hnone c rfl)

end Laid

end Laid

namespace Lexer

variable {source : String} {front read rest : List Char} {c : Char}

def after (source : String) (front : List Char) : Lexer := ⟨source, byteLength front⟩

theorem peek?_after (h : source.toList = front ++ rest) :
    (after source front).peek? = (encode rest).head? := by
  rw [peek?, bytes, after, h, encode_append, ← length_encode,
    List.getElem?_append_right (Nat.le_refl _), Nat.sub_self, List.head?_eq_getElem?]

section Reading

variable (hlimit : byteLength source.toList < offsetLimit)

include hlimit

theorem move?_after (h : source.toList = front ++ (read ++ rest)) :
    (after source front).move? (byteLength read) = some (after source (front ++ read)) := by
  rw [h, byteLength_append, byteLength_append] at hlimit
  have hfits : byteLength front + byteLength read < offsetLimit := by omega
  rw [move?, after, if_pos hfits, after, byteLength_append]

theorem move?_after_char (h : source.toList = front ++ c :: rest) :
    (after source front).move? c.utf8Size = some (after source (front ++ [c])) :=
  move?_after hlimit (show source.toList = front ++ ([c] ++ rest) from h)

theorem skipChar?_after (h : source.toList = front ++ c :: rest) :
    (after source front).skipChar? = some (after source (front ++ [c])) := by
  have hsplit : splitBytes (byteLength front) source.toList = some (front, c :: rest) := by
    rw [h, splitBytes_append]
  rw [skipChar?]
  change (splitBytes (byteLength front) source.toList).bind _ = _
  rw [hsplit]
  exact move?_after_char hlimit h

-- By induction on the characters that are left, since the bytes are those of the characters of a
-- name, one for each.
theorem scanName?_after (h : source.toList = front ++ rest) :
    (after source front).scanName? = some (after source (front ++ rest.takeWhile isNameChar)) := by
  induction rest generalizing front with
  | nil =>
    rw [scanName?_end (peek?_after h), List.takeWhile_nil, List.append_nil]
  | cons c rest ih =>
    have hpeek : (after source front).peek? = some (leadByte c) :=
      (peek?_after h).trans (head?_encode c rest)
    by_cases hc : isNameChar c = true
    · have hstep : (after source front).advance? = some (after source (front ++ [c])) := by
        rw [advance?, ← utf8Size_of_isNameChar hc]
        exact move?_after_char hlimit h
      rw [scanName?_name hpeek (isNameByte_leadByte c ▸ hc), hstep, Option.bind_some,
        ih (by rw [h, List.append_cons]), List.takeWhile_cons_of_pos hc, List.append_assoc]
      rfl
    · rw [scanName?_other hpeek (isNameByte_leadByte c ▸ hc), List.takeWhile_cons_of_neg hc,
        List.append_nil]

theorem consume?_after {kind : TokenKind} (h : source.toList = front ++ (read ++ rest))
    (hkind : kind ≠ .stop) (hspells : kind.Spells read) (hname : kind = .name → NoNameChar rest) :
    (after source front).consume? kind = some (after source (front ++ read)) := by
  cases kind with
  | openBracket | closeBracket | bang =>
    cases hspells
    exact move?_after_char hlimit h
  | name =>
    have htake : (read ++ rest).takeWhile isNameChar = read := by
      rw [List.takeWhile_append_of_pos (isNameChar_of_isNameList hspells),
        (hname rfl).ends.1, List.append_nil]
    have hscan := scanName?_after hlimit h
    rwa [htake] at hscan
  | unexpected =>
    obtain ⟨c, rfl, -⟩ := hspells
    exact skipChar?_after hlimit h
  | stop => exact absurd rfl hkind

theorem nextToken?_after {kind : TokenKind} (h : source.toList = front ++ (read ++ rest))
    (hkind : kind ≠ .stop) (hspells : kind.Spells read) (hname : kind = .name → NoNameChar rest) :
    (after source front).nextToken? =
      some ((Token.mk kind (byteLength front) read).lexeme, after source (front ++ read)) := by
  have hconsume := consume?_after hlimit h hkind hspells hname
  obtain ⟨c, more, rfl, rfl⟩ := hspells.cons hkind
  have hpeek : (after source front).peek? = some (leadByte c) :=
    (peek?_after h).trans (head?_encode c _)
  rw [nextToken?, hpeek]
  simp only [byteKind_leadByte, hconsume, Option.bind_eq_bind, Option.bind_some]
  simp only [after, byteLength_append]
  rfl

-- By induction on the tokens, each of which leaves the scanner behind its text.
theorem tokenize?_after {start : Nat} {tokens : List Token} (hlaid : Laid start rest tokens)
    (h : source.toList = front ++ rest) (hstart : start = byteLength front) :
    (after source front).tokenize? = some (tokens.map Token.lexeme) := by
  induction hlaid generalizing front with
  | stop start =>
    have hnext : (after source front).nextToken? =
        some (⟨.stop, ⟨byteLength front, byteLength front⟩⟩, after source front) := by
      rw [nextToken?, peek?_after h]
      rfl
    rw [tokenize?_of_nextToken? hnext, hstart]
    rfl
  | @token start kind read rest tokens hkind hspells hname hrest ih =>
    have hnext := nextToken?_after hlimit h hkind hspells hname
    have hrest' := ih (by rw [h, List.append_assoc]) (by rw [hstart, byteLength_append])
    have hlexeme : (Token.mk kind (byteLength front) read).lexeme.kind ≠ .stop := hkind
    rw [tokenize?_of_nextToken? hnext, if_neg hlexeme, hrest', hstart]
    rfl

/-- The bytes give the tokens of the characters. -/
theorem tokenize?_new : (new source).tokenize? = some ((tokenize source.toList).map Token.lexeme) :=
  tokenize?_after hlimit (tokenize_laid source.toList)
    (show source.toList = [] ++ source.toList from rfl) rfl

end Reading

end Lexer

section Tiles

def IsBoundary (source : String) (offset : Nat) : Prop :=
  ∃ front back, source.toList = front ++ back ∧ offset = byteLength front

/-- The tokens cover the text without a gap, each with whole characters of its kind and as many as a
name can have, and only the one at the end is empty. -/
structure Tiles (source : String) (tokens : List Lexeme) : Prop where
  contiguous : tokens.map (·.span.start) ++ [byteLength source.toList] =
    0 :: tokens.map (·.span.stop)
  ordered : ∀ t ∈ tokens, t.span.start ≤ t.span.stop
  boundaries : ∀ t ∈ tokens, IsBoundary source t.span.start ∧ IsBoundary source t.span.stop
  last : ∃ front,
    tokens = front ++ [⟨.stop, ⟨byteLength source.toList, byteLength source.toList⟩⟩] ∧
    ∀ t ∈ front, t.kind ≠ .stop ∧ t.span.isEmpty = false
  joined : String.join (tokens.map (·.text source)) = source
  spelled : ∀ t ∈ tokens, t.kind.Spells (t.text source).toList
  maximal : tokens.IsChain fun t next =>
    t.kind = .name → next.kind ≠ .name ∧ NoNameChar (next.text source).toList

variable {source : String} {tokens : List Token} {t : Token}

theorem Laid.text (h : Laid 0 source.toList tokens) (ht : t ∈ tokens) :
    t.lexeme.text source = t.text := by
  obtain ⟨front, back, hsource, hstart⟩ := h.place ht
  rw [Nat.zero_add] at hstart
  rw [Lexeme.text, Token.lexeme, Token.span, hstart]
  exact Span.slice_middle hsource

theorem Laid.tiles (h : Laid 0 source.toList tokens) : Tiles source (tokens.map Token.lexeme) where
  contiguous := by
    have hcontiguous := h.contiguous
    rw [Nat.zero_add] at hcontiguous
    rw [List.map_map, List.map_map]
    exact hcontiguous
  ordered := List.forall_mem_map.mpr fun t _ => Nat.le_add_right t.start _
  boundaries := by
    refine List.forall_mem_map.mpr ?_
    intro t ht
    obtain ⟨front, back, hsource, hstart⟩ := h.place ht
    rw [Nat.zero_add] at hstart
    refine ⟨⟨front, _, hsource, hstart⟩, front ++ t.chars, back, ?_, ?_⟩
    · rw [hsource, List.append_assoc]
    · rw [byteLength_append, ← hstart]
      rfl
  last := by
    obtain ⟨front, htokens, hfront⟩ := h.last
    rw [Nat.zero_add] at htokens
    refine ⟨front.map Token.lexeme, ?_, List.forall_mem_map.mpr ?_⟩
    · rw [htokens, List.map_append]
      rfl
    · intro t ht
      have hmem : t ∈ tokens := htokens ▸ List.mem_append_left _ ht
      obtain ⟨c, more, hchars, -⟩ := (h.spells hmem).cons (hfront t ht)
      have hpos := c.utf8Size_pos
      refine ⟨hfront t ht, ?_⟩
      rw [Span.isEmpty, beq_eq_false_iff_ne]
      change t.start ≠ t.start + byteLength t.chars
      rw [hchars, byteLength]
      omega
  joined := by
    have htexts : (tokens.map Token.lexeme).map (·.text source) = tokens.map Token.text := by
      rw [List.map_map]
      exact List.map_congr_left fun t ht => h.text ht
    rw [htexts, ← String.toList_inj, String.toList_join, List.flatMap_map, ← h.joined]
    exact List.flatMap_congr fun t _ => String.toList_ofList
  spelled := by
    refine List.forall_mem_map.mpr ?_
    intro t ht
    rw [h.text ht, Token.text, String.toList_ofList]
    exact h.spells ht
  maximal := by
    rw [List.isChain_map]
    refine h.maximal.imp_of_mem_imp ?_
    intro t next _ hnext hmaximal hkind
    rw [h.text hnext, Token.text, String.toList_ofList]
    exact hmaximal hkind

end Tiles

/-- The scanner comes to the end of every text whose offsets fit, with the tokens of its characters,
and they tile the text. -/
theorem tokens_tile (source : String) (hlimit : byteLength source.toList < offsetLimit) :
    ∃ tokens, (Lexer.new source).tokenize? = some tokens ∧ Tiles source tokens ∧
      tokens = (tokenize source.toList).map Token.lexeme :=
  ⟨_, Lexer.tokenize?_new hlimit, (tokenize_laid source.toList).tiles, rfl⟩

/-- The accented letter belongs to no name. It is a token of its own, with both of its bytes. -/
theorem accented_tiles :
    byteLength "[Tagé_1]!".toList < offsetLimit ∧
      ∃ tokens, (Lexer.new "[Tagé_1]!").tokenize? = some tokens ∧ Tiles "[Tagé_1]!" tokens ∧
        tokens.map Lexeme.span = [⟨0, 1⟩, ⟨1, 4⟩, ⟨4, 6⟩, ⟨6, 8⟩, ⟨8, 9⟩, ⟨9, 10⟩, ⟨10, 10⟩] ∧
        tokens.map Lexeme.kind = [.openBracket, .name, .unexpected, .name, .closeBracket,
          .bang, .stop] := by
  have hlimit : byteLength "[Tagé_1]!".toList < offsetLimit := by decide
  obtain ⟨tokens, hok, htiles, rfl⟩ := tokens_tile "[Tagé_1]!" hlimit
  exact ⟨hlimit, _, hok, htiles, by decide +kernel, by decide +kernel⟩

end TypeExpr

end GraphQLClient
