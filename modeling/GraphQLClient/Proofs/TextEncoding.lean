import GraphQLClient.Text.Utf8
import Mathlib.Tactic.Common

/-!
# Encoded texts read back

Every character comes back from its bytes, whatever stands behind them, so a text comes back from
its encoding. A byte below 128 in an encoding is a character of the text.
-/
namespace GraphQLClient.Text.Utf8

section Reading

variable {a b c d : UInt8} {rest : List UInt8}

theorem isTail_iff : isTail b = true ↔ 128 ≤ b.toNat ∧ b.toNat ≤ 191 := by
  simp [isTail, UInt8.le_iff_toNat_le]

/-- The second byte neither writes a character in more bytes than it needs, nor one that there is
not. -/
theorem isSecond_iff : isSecond a b = true ↔ isTail b = true ∧
    (a.toNat = 224 → 160 ≤ b.toNat) ∧ (a.toNat = 237 → b.toNat ≤ 159) ∧
    (a.toNat = 240 → 144 ≤ b.toNat) ∧ (a.toNat = 244 → b.toNat ≤ 143) := by
  simp only [isSecond, ← UInt8.toNat_inj, isTail_iff]
  split_ifs <;> simp_all [isTail_iff, UInt8.le_iff_toNat_le] <;> omega

theorem pieces_one (ha : a.toNat ≤ 127) :
    pieces (a :: rest) = .char (Char.ofNat a.toNat) :: pieces rest := by
  have hlow : a < 0x80 := UInt8.lt_iff_toNat_lt.mpr (Nat.lt_succ_of_le ha)
  rw [pieces.eq_def]
  exact if_pos hlow

theorem pieces_two (ha : 194 ≤ a.toNat ∧ a.toNat ≤ 223) (hb : isTail b = true) :
    pieces (a :: b :: rest) = .char (assemble (a.toNat % 32) [b]) :: pieces rest := by
  have hone : ¬ a.toNat < 128 := by omega
  rw [pieces.eq_def]
  simp [UInt8.lt_iff_toNat_lt, UInt8.le_iff_toNat_le, ha, hb, hone]

theorem pieces_three (ha : 224 ≤ a.toNat ∧ a.toNat ≤ 239) (hb : isSecond a b = true)
    (hc : isTail c = true) :
    pieces (a :: b :: c :: rest) = .char (assemble (a.toNat % 16) [b, c]) :: pieces rest := by
  have hone : ¬ a.toNat < 128 := by omega
  have htwo : ¬ a.toNat ≤ 223 := by omega
  rw [pieces.eq_def]
  simp [UInt8.lt_iff_toNat_lt, UInt8.le_iff_toNat_le, ha, hb, hc, hone, htwo]

theorem pieces_four (ha : 240 ≤ a.toNat ∧ a.toNat ≤ 244) (hb : isSecond a b = true)
    (hc : isTail c = true) (hd : isTail d = true) :
    pieces (a :: b :: c :: d :: rest) =
      .char (assemble (a.toNat % 8) [b, c, d]) :: pieces rest := by
  have hone : ¬ a.toNat < 128 := by omega
  have htwo : ¬ a.toNat ≤ 223 := by omega
  have hthree : ¬ a.toNat ≤ 239 := by omega
  rw [pieces.eq_def]
  simp [UInt8.lt_iff_toNat_lt, UInt8.le_iff_toNat_le, ha, hb, hc, hd, hone, htwo, hthree]

end Reading

section Writing

variable {n : Nat}

theorem toNat_byte (h : n < 256) : (UInt8.ofNat n).toNat = n := by
  rw [UInt8.toNat_ofNat']
  exact Nat.mod_eq_of_lt h

theorem toNat_tail (n : Nat) : (UInt8.ofNat (n % 64 + 128)).toNat = n % 64 + 128 :=
  toNat_byte (by omega)

theorem isTail_tail (n : Nat) : isTail (UInt8.ofNat (n % 64 + 128)) = true := by
  rw [isTail_iff, toNat_tail]
  omega

theorem toNat_tail_mod (n : Nat) : (UInt8.ofNat (n % 64 + 128)).toNat % 64 = n % 64 := by
  rw [toNat_tail]
  omega

/-- Surrogates are no characters. -/
theorem toNat_valid (c : Char) : c.toNat < 0xD800 ∨ 0xDFFF < c.toNat ∧ c.toNat < 0x110000 := c.valid

def bytesOf (n : Nat) : List UInt8 :=
  if n ≤ 127 then [.ofNat n]
  else if n ≤ 2047 then [.ofNat (n / 64 % 32 + 192), .ofNat (n % 64 + 128)]
  else if n ≤ 65535 then
    [.ofNat (n / 4096 % 16 + 224), .ofNat (n / 64 % 64 + 128), .ofNat (n % 64 + 128)]
  else
    [.ofNat (n / 262144 % 8 + 240), .ofNat (n / 4096 % 64 + 128), .ofNat (n / 64 % 64 + 128),
      .ofNat (n % 64 + 128)]

theorem encodeChar_eq (c : Char) : String.utf8EncodeChar c = bytesOf c.toNat := rfl

-- The cases are the widths of the encoding. In each, the bits that the bytes hold add up to the
-- code point.
theorem pieces_encodeChar (c : Char) (rest : List UInt8) :
    pieces (String.utf8EncodeChar c ++ rest) = .char c :: pieces rest := by
  have hvalid := toNat_valid c
  have hself : Char.ofNat c.toNat = c := Char.ofNat_toNat c
  rw [encodeChar_eq, bytesOf]
  generalize c.toNat = n at hvalid hself ⊢
  subst hself
  split_ifs with hone htwo hthree
  · have ha : (UInt8.ofNat n).toNat = n := toNat_byte (by omega)
    rw [List.singleton_append, pieces_one (by omega), ha]
  · have ha : (UInt8.ofNat (n / 64 % 32 + 192)).toNat = n / 64 % 32 + 192 := toNat_byte (by omega)
    simp only [List.cons_append, List.nil_append]
    rw [pieces_two (by omega) (isTail_tail _), assemble]
    simp only [List.foldl_cons, List.foldl_nil, ha, toNat_tail_mod]
    congr 3
    omega
  · have ha : (UInt8.ofNat (n / 4096 % 16 + 224)).toNat = n / 4096 % 16 + 224 :=
      toNat_byte (by omega)
    have hsecond : isSecond (UInt8.ofNat (n / 4096 % 16 + 224))
        (UInt8.ofNat (n / 64 % 64 + 128)) = true := by
      rw [isSecond_iff, ha, toNat_tail]
      exact ⟨isTail_tail _, by omega, by omega, by omega, by omega⟩
    simp only [List.cons_append, List.nil_append]
    rw [pieces_three (by omega) hsecond (isTail_tail _), assemble]
    simp only [List.foldl_cons, List.foldl_nil, ha, toNat_tail_mod]
    congr 3
    omega
  · have ha : (UInt8.ofNat (n / 262144 % 8 + 240)).toNat = n / 262144 % 8 + 240 :=
      toNat_byte (by omega)
    have hsecond : isSecond (UInt8.ofNat (n / 262144 % 8 + 240))
        (UInt8.ofNat (n / 4096 % 64 + 128)) = true := by
      rw [isSecond_iff, ha, toNat_tail]
      exact ⟨isTail_tail _, by omega, by omega, by omega, by omega⟩
    simp only [List.cons_append, List.nil_append]
    rw [pieces_four (by omega) hsecond (isTail_tail _) (isTail_tail _), assemble]
    simp only [List.foldl_cons, List.foldl_nil, ha, toNat_tail_mod]
    congr 3
    omega

/-- A byte below 128 is a code point by itself. -/
theorem eq_of_mem_bytesOf {b : UInt8} (hb : b ∈ bytesOf n) (hlow : b.toNat < 128) :
    b.toNat = n := by
  have hlead : ∀ k, k < 64 → b = .ofNat (k + 192) → False := by
    rintro k hk rfl
    rw [toNat_byte (by omega)] at hlow
    omega
  have htail : ∀ k, b = .ofNat (k % 64 + 128) → False := by
    rintro k rfl
    rw [toNat_tail] at hlow
    omega
  unfold bytesOf at hb
  split_ifs at hb with hone htwo hthree
  · rw [List.mem_singleton.mp hb, toNat_byte (by omega)]
  all_goals
    simp only [List.mem_cons, List.not_mem_nil, or_false] at hb
  · rcases hb with hb | hb
    · exact (hlead (n / 64 % 32) (by omega) hb).elim
    · exact (htail _ hb).elim
  · rcases hb with hb | hb | hb
    · exact (hlead (n / 4096 % 16 + 32) (by omega) hb).elim
    · exact (htail _ hb).elim
    · exact (htail _ hb).elim
  · rcases hb with hb | hb | hb | hb
    · exact (hlead (n / 262144 % 8 + 48) (by omega) hb).elim
    · exact (htail _ hb).elim
    · exact (htail _ hb).elim
    · exact (htail _ hb).elim

end Writing

variable {cs : List Char}

@[simp] theorem encode_append (cs ds : List Char) : encode (cs ++ ds) = encode cs ++ encode ds :=
  List.flatMap_append

theorem pieces_encode (cs : List Char) (rest : List UInt8) :
    pieces (encode cs ++ rest) = cs.map .char ++ pieces rest := by
  induction cs with
  | nil => rfl
  | cons c cs ih =>
    rw [encode, List.flatMap_cons, List.append_assoc, pieces_encodeChar]
    exact congrArg (Piece.char c :: ·) ih

theorem charsOf_chars (index : Nat) (cs : List Char) : charsOf index (cs.map .char) = .ok cs := by
  induction cs generalizing index with
  | nil => rfl
  | cons c cs ih =>
    rw [List.map_cons, charsOf, ih]
    rfl

theorem decode_encode (cs : List Char) : decode (encode cs) = .ok cs := by
  have hpieces := pieces_encode cs []
  rw [pieces.eq_def [], List.append_nil, List.append_nil] at hpieces
  rw [decode, hpieces, charsOf_chars]

@[simp] theorem decodeLenient_append (cs : List Char) (rest : List UInt8) :
    decodeLenient (encode cs ++ rest) = cs ++ decodeLenient rest := by
  rw [decodeLenient, pieces_encode, List.map_append, List.map_map]
  exact congrArg (· ++ _) (List.map_id cs)

/-- Only a character below 128 has a byte below 128. -/
theorem mem_encode_of_lt {b : UInt8} (hb : b ∈ encode cs) (hlow : b.toNat < 128) :
    Char.ofNat b.toNat ∈ cs := by
  obtain ⟨c, hc, hbyte⟩ := List.mem_flatMap.mp hb
  have hcode : b.toNat = c.toNat := eq_of_mem_bytesOf hbyte hlow
  rwa [hcode, Char.ofNat_toNat]

end GraphQLClient.Text.Utf8
