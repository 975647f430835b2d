import Rpcsx.Lib.BitField
import Rpcsx.Lib.Unicode
import Rpcsx.Ps3.CellL10n.Basic

/-!
# The converters of one character

Each converter of one character reads a character of its source code and writes it in its target
code. The masks and shifts of the source are turned into divisions and remainders first; what is left
is arithmetic on the number of the character.
-/

namespace Rpcsx.Ps3.CellL10n

open Lib UnitCode List Nat UInt8

/-! ## Masks and shifts -/

section Masks

variable (x : Nat)

theorem and_3 : x &&& 3 = x % 4 := and_two_pow_sub_one_eq_mod x 2

theorem and_7 : x &&& 7 = x % 8 := and_two_pow_sub_one_eq_mod x 3

theorem and_0f : x &&& 0xf = x % 16 := and_two_pow_sub_one_eq_mod x 4

theorem and_1f : x &&& 0x1f = x % 32 := and_two_pow_sub_one_eq_mod x 5

theorem and_3f : x &&& 0x3f = x % 64 := and_two_pow_sub_one_eq_mod x 6

theorem and_3ff : x &&& 0x3ff = x % 1024 := and_two_pow_sub_one_eq_mod x 10

theorem and_30 : x &&& 0x30 = x / 16 % 4 * 16 := and_field x 2 4

theorem and_c0 : x &&& 0xc0 = x / 64 % 4 * 64 := and_field x 2 6

theorem and_e0 : x &&& 0xe0 = x / 32 % 8 * 32 := and_field x 3 5

theorem and_f0 : x &&& 0xf0 = x / 16 % 16 * 16 := and_field x 4 4

theorem and_f8 : x &&& 0xf8 = x / 8 % 32 * 8 := and_field x 5 3

theorem and_f800 : x &&& surrogatesMask1 = x / 2048 % 32 * 2048 := and_field x 5 11

theorem and_fc00 : x &&& surrogatesMask2 = x / 1024 % 64 * 1024 := and_field x 6 10

end Masks

section Joins

variable {a b c d : Nat}

/-- Two fields, the low one of six bits. -/
theorem join_two : (a &&& 0x1f) <<< 6 ||| (b &&& 0x3f) = a % 32 * 64 + b % 64 := by
  rw [and_1f, and_3f, shiftLeft_eq, or_eq_add 6 (by omega) (by omega)]

theorem join_three : (b &&& 0x3f) <<< 6 ||| (a &&& 0xf) <<< 0xc ||| (c &&& 0x3f) =
      a % 16 * 4096 + b % 64 * 64 + c % 64 := by
  have hab : a % 16 * 2 ^ 12 ||| b % 64 * 2 ^ 6 = a % 16 * 2 ^ 12 + b % 64 * 2 ^ 6 := or_eq_add 12 (by omega) (by omega)
  rw [and_0f, and_3f, and_3f, shiftLeft_eq, shiftLeft_eq, Nat.or_comm (b % 64 * 2 ^ 6), hab,
    or_eq_add 6 (by omega) (by omega)]
  rfl

theorem join_four : (c &&& 0x3f) <<< 6 ||| (a &&& 7) <<< 0x12 ||| (b &&& 0x3f) <<< 0xc ||| (d &&& 0x3f) =
      a % 8 * 262144 + b % 64 * 4096 + c % 64 * 64 + d % 64 := by
  have hab : a % 8 * 2 ^ 18 ||| b % 64 * 2 ^ 12 = a % 8 * 2 ^ 18 + b % 64 * 2 ^ 12 := or_eq_add 18 (by omega) (by omega)
  have habc : a % 8 * 2 ^ 18 + b % 64 * 2 ^ 12 ||| c % 64 * 2 ^ 6 =
      a % 8 * 2 ^ 18 + b % 64 * 2 ^ 12 + c % 64 * 2 ^ 6 := or_eq_add 12 (by omega) (by omega)
  rw [and_7, and_3f, and_3f, and_3f, shiftLeft_eq, shiftLeft_eq, shiftLeft_eq,
    Nat.or_assoc (c % 64 * 2 ^ 6), Nat.or_comm (c % 64 * 2 ^ 6), hab, habc,
    or_eq_add 6 (by omega) (by omega)]
  rfl

/-- A byte that follows another one: six bits behind the mark. -/
theorem or_80 (h : a < 128) : a ||| 0x80 = a + 0x80 := or_eq_add' 7 h (by decide)

theorem or_c0 (h : a < 64) : a ||| 0xc0 = a + 0xc0 := or_eq_add' 6 h (by decide)

theorem or_e0 (h : a < 32) : a ||| 0xe0 = a + 0xe0 := or_eq_add' 5 h (by decide)

theorem or_f0 (h : a < 16) : a ||| 0xf0 = a + 0xf0 := or_eq_add' 4 h (by decide)

theorem or_d800 (h : a < 2048) : a ||| highSurrogates = a + 0xd800 := or_eq_add' 11 h (by decide)

theorem or_dc00 (h : a < 1024) : a ||| lowSurrogates = a + 0xdc00 := or_eq_add' 10 h (by decide)

theorem follow_eq : (a % 0x100 &&& 0x3f) ||| 0x80 = a % 64 + 0x80 := by
  rw [and_3f, or_80 (by omega)]
  omega

/-- A following byte of two bits of one unit and four of another. -/
theorem follow_join (ha : a < 4) (hb : b < 16) : a * 16 ||| b ||| 0x80 = a * 16 + b + 0x80 := by
  have hab : a * 16 ||| b = a * 16 + b := or_eq_add 4 (by omega) (by omega)
  rw [hab, or_80 (by omega)]

end Joins

/-- The shifts by which the source takes the high bits of a number of 32 bits. -/
theorem shl64_div {x : Nat} (hx : x < 0x100000000) (i : Nat) : shl64 x 0x20 / 2 ^ (0x20 + i) = x / 2 ^ i := by
  rw [shl64, shiftLeft_eq, mod_eq_of_lt (by omega), Nat.pow_add,
    ← Nat.div_div_eq_div_mul, Nat.mul_div_cancel _ (by decide)]

theorem shl64_shiftRight {x : Nat} (hx : x < 0x100000000) (i : Nat) : shl64 x 0x20 >>> (0x20 + i) = x / 2 ^ i := by
  rw [shiftRight_eq_div_pow, shl64_div hx]

/-! ## From UTF-32 -/

section Forms

variable {c : Char}

theorem utf8_encode_one (h : c.val.toNat ≤ 0x7f) : utf8.encode c = [ofNat c.val.toNat] := if_pos h

theorem utf8_encode_two (h : 0x7f < c.val.toNat) (h' : c.val.toNat ≤ 0x7ff) :
    utf8.encode c = [ofNat (c.val.toNat / 64 % 32 + 0xc0), ofNat (c.val.toNat % 64 + 0x80)] :=
  (if_neg (not_le.mpr h)).trans (if_pos h')

theorem utf8_encode_three (h : 0x7ff < c.val.toNat) (h' : c.val.toNat ≤ 0xffff) :
    utf8.encode c = [ofNat (c.val.toNat / 4096 % 16 + 0xe0),
      ofNat (c.val.toNat / 64 % 64 + 0x80), ofNat (c.val.toNat % 64 + 0x80)] :=
  (if_neg (by omega)).trans ((if_neg (not_le.mpr h)).trans (if_pos h'))

theorem utf8_encode_four (h : 0x10000 ≤ c.val.toNat) : utf8.encode c = [ofNat (c.val.toNat / 262144 % 8 + 0xf0),
      ofNat (c.val.toNat / 4096 % 64 + 0x80), ofNat (c.val.toNat / 64 % 64 + 0x80),
      ofNat (c.val.toNat % 64 + 0x80)] :=
  (if_neg (by omega)).trans ((if_neg (by omega)).trans (if_neg (by omega)))

end Forms

theorem notScalar_iff {v : Nat} (h : v < 0x100000000) : notScalar (signExtend v) ↔ ¬v.isValidChar := by
  unfold notScalar signExtend low32 sub64 highSurrogates Nat.isValidChar
  split_ifs <;> omega

theorem signExtend_of_isValidChar {v : Nat} (h : v.isValidChar) : signExtend v = v := by
  rw [signExtend, if_pos (by omega)]

theorem not_notScalar {v : Nat} (h : v.isValidChar) : ¬notScalar v := by
  unfold notScalar low32 sub64 highSurrogates
  omega

theorem utf32toUTF8_val (c : Char) : utf32toUTF8 c.val = utf8.encode c := by
  have hlt := toNat_lt c
  have hv : c.val.toNat.isValidChar := c.valid
  unfold utf32toUTF8 utf8 String.utf8EncodeChar
  rw [signExtend_of_isValidChar hv, if_neg (not_notScalar hv)]
  generalize c.val.toNat = v at hlt
  rw [low32, mod_eq_of_lt (by omega), shl64_shiftRight (by omega) 0x12,
    shl64_shiftRight (by omega) 0x6, shl64_shiftRight (by omega) 0xc, follow_eq, follow_eq, follow_eq,
    shiftRight_eq_div_pow, shiftRight_eq_div_pow]
  by_cases h1 : v ≤ 0x7f
  · rw [if_neg (show ¬0xffff < v by omega), if_pos (show v < 0x80 by omega), if_pos h1]
  by_cases h2 : v ≤ 0x7ff
  · have hlead : v / 2 ^ 6 % 0x100 + 0xc0 = v / 64 % 32 + 0xc0 := by omega
    rw [if_neg (show ¬0xffff < v by omega), if_neg (show ¬v < 0x80 by omega),
      if_pos (show v < 0x800 by omega), if_neg h1, if_pos h2, or_c0 (by omega), hlead]
  by_cases h3 : v ≤ 0xffff
  · have hlead : v / 2 ^ 12 % 0x100 + 0xe0 = v / 4096 % 16 + 0xe0 := by omega
    rw [if_neg (show ¬0xffff < v by omega), if_neg (show ¬v < 0x80 by omega),
      if_neg (show ¬v < 0x800 by omega), if_neg h1, if_neg h2, if_pos h3, or_e0 (by omega), hlead]
  have hlead : v / 2 ^ 18 % 0x100 + 0xf0 = v / 262144 % 8 + 0xf0 := by omega
  rw [if_pos (show 0xffff < v by omega), if_neg h1, if_neg h2, if_neg h3, or_f0 (by omega), hlead]

theorem utf32toUTF16_val (c : Char) : utf32toUTF16 c.val = utf16.encode c := by
  have hlt := toNat_lt c
  have hv : c.val.toNat.isValidChar := c.valid
  unfold utf32toUTF16 utf16
  dsimp only
  rw [signExtend_of_isValidChar hv, if_neg (not_notScalar hv)]
  generalize c.val.toNat = v at hlt
  rw [low32, mod_eq_of_lt (by omega)]
  by_cases h2 : 0xffff < v
  · have hsub : sub64 v 0x10000 = v - 0x10000 := by
      unfold sub64
      omega
    have hhigh : (v - 0x10000) / 2 ^ 0xa % 0x10000 + 0xd800 = 0xd800 + (v - 0x10000) / 1024 := by omega
    have hlow : v % 0x10000 % 1024 + 0xdc00 = 0xdc00 + (v - 0x10000) % 1024 := by omega
    rw [if_pos h2, if_neg (show ¬v < 0x10000 by omega), hsub, shl64_shiftRight (by omega) 0xa,
      and_3ff, or_d800 (by omega), or_dc00 (by omega), hhigh, hlow]
  rw [if_neg h2, if_pos (show v < 0x10000 by omega)]

/-- Any other number has no units. -/
theorem exists_char_of_ne_nil {src : UInt32}
    (h : utf32toUTF8 src ≠ [] ∨ utf32toUTF16 src ≠ []) : ∃ c : Char, c.val = src := by
  by_cases hv : src.toNat.isValidChar
  · exact ⟨⟨src, hv⟩, rfl⟩
  have hscalar := (notScalar_iff src.toNat_lt).mpr hv
  rw [utf32toUTF8, utf32toUTF16, if_pos hscalar, if_pos hscalar] at h
  exact (h.elim (· rfl) (· rfl)).elim

/-- A converter of one unit reads it, and there is no other way to read a character. -/
theorem converts_oneUnit {τ : Type} [Zero τ] {code : UnitCode Char τ} {conv : UInt32 → List τ}
    (hval : ∀ c : Char, conv c.val = code.encode c) (hchar : ∀ src, conv src ≠ [] → ∃ c : Char, c.val = src) :
    Converts utf32 code (oneUnit conv) where
  step_encode c rest := by
    have hpos : (code.encode c).length ≠ 0 := ne_of_gt (length_encode_pos c)
    unfold oneUnit utf32
    rw [singleton_append, getD_cons_zero, hval, if_neg hpos]
    rfl
  encode_of_step s hs hstep := by
    obtain ⟨src, rest, rfl⟩ := exists_cons_of_ne_nil hs
    unfold oneUnit at hstep
    rw [getD_cons_zero] at hstep
    have hne : conv src ≠ [] := by
      intro hnil
      rw [hnil] at hstep
      exact hstep rfl
    obtain ⟨c, rfl⟩ := hchar src hne
    exact ⟨c, rest, rfl⟩

theorem converts_utf32toUTF8 : Converts utf32 utf8 (oneUnit utf32toUTF8) :=
  converts_oneUnit utf32toUTF8_val fun _ h => exists_char_of_ne_nil (.inl h)

theorem converts_utf32toUTF16 : Converts utf32 utf16 (oneUnit utf32toUTF16) :=
  converts_oneUnit utf32toUTF16_val fun _ h => exists_char_of_ne_nil (.inr h)

/-! ## From UTF-16 -/

theorem wordAt_zero {x : Nat} (hx : x < 0x10000) (rest : List UInt16) : wordAt (UInt16.ofNat x :: rest) 0 = x := by
  rw [wordAt, getD_cons_zero, UInt16.toNat_ofNat', mod_eq_of_lt hx]

theorem wordAt_head (a : UInt16) (rest : List UInt16) : wordAt (a :: rest) 0 = a.toNat := rfl

theorem wordAt_succ (a : UInt16) (rest : List UInt16) (i : Nat) : wordAt (a :: rest) (i + 1) = wordAt rest i := rfl

theorem utf16_encode_of_lt {c : Char} (h : c.val.toNat < 0x10000) :
    utf16.encode c = [UInt16.ofNat c.val.toNat] := if_pos h

theorem utf16_encode_of_le {c : Char} (h : 0x10000 ≤ c.val.toNat) :
    utf16.encode c = [UInt16.ofNat (0xd800 + (c.val.toNat - 0x10000) / 1024),
      UInt16.ofNat (0xdc00 + (c.val.toNat - 0x10000) % 1024)] := if_neg (not_lt.mpr h)

theorem step_utf16toUTF32 (c : Char) (rest : List UInt16) :
    utf16toUTF32 (utf16.encode c ++ rest) = ((utf16.encode c).length, utf32.encode c) := by
  have hlt := toNat_lt c
  have hsur := not_surrogate c
  have hofNat : UInt32.ofNat c.val.toNat = c.val := UInt32.ofNat_toNat
  unfold utf16toUTF32
  simp only [and_f800, and_fc00, and_3ff]
  unfold highSurrogates lowSurrogates
  by_cases h : c.val.toNat < 0x10000
  · rw [utf16_encode_of_lt h, singleton_append, wordAt_zero h, if_pos (by omega), hofNat]
    rfl
  rw [utf16_encode_of_le (by omega), cons_append, wordAt_zero (by omega),
    singleton_append, wordAt_succ, wordAt_zero (by omega), if_neg (by omega),
    if_pos (by omega), or_eq_add 10 (by omega) (by omega)]
  have hval : (0xd800 + (c.val.toNat - 0x10000) / 1024) % 1024 * 0x400 + 0x10000 +
      (0xdc00 + (c.val.toNat - 0x10000) % 1024) % 1024 = c.val.toNat := by omega
  rw [hval, hofNat]
  rfl

theorem step_utf16toUTF8 (c : Char) (rest : List UInt16) :
    utf16toUTF8 (utf16.encode c ++ rest) = ((utf16.encode c).length, utf8.encode c) := by
  have hlt := toNat_lt c
  have hsur := not_surrogate c
  unfold utf16toUTF8
  simp only [and_f800, and_fc00, Nat.reduceMod, Nat.reduceDiv, one_ne_zero, if_false, follow_eq, shiftRight_eq_div_pow]
  unfold highSurrogates lowSurrogates
  by_cases h4 : 0x10000 ≤ c.val.toNat
  · rw [utf16_encode_of_le h4, cons_append, wordAt_zero (by omega),
      singleton_append, wordAt_succ, wordAt_zero (by omega), if_pos (by omega),
      if_pos (by omega), utf8_encode_four h4]
    generalize hhigh : 0xd800 + (c.val.toNat - 0x10000) / 1024 = high
    generalize hlow : 0xdc00 + (c.val.toNat - 0x10000) % 1024 = low
    have hplane : high / 2 ^ 6 % 16 + 1 = c.val.toNat / 65536 := by omega
    have hfirst : (c.val.toNat / 65536 / 2 ^ 2 % 0x100 ||| 0xf0) = c.val.toNat / 262144 % 8 + 0xf0 := by
      rw [or_f0 (by omega)]
      omega
    have hsecond : c.val.toNat / 65536 * 0x10 / 16 % 4 * 16 ||| high / 2 ^ 2 % 0x100 % 16 ||| 0x80 =
        c.val.toNat / 4096 % 64 + 0x80 := by
      rw [follow_join (by omega) (by omega)]
      omega
    have hthird : low / 2 ^ 6 % 0x100 % 16 ||| (high % 0x100 % 4) <<< 4 ||| 0x80 = c.val.toNat / 64 % 64 + 0x80 := by
      rw [shiftLeft_eq, Nat.or_comm (_ % 16), follow_join (by omega) (by omega)]
      omega
    have hfourth : low % 64 + 0x80 = c.val.toNat % 64 + 0x80 := by omega
    rw [and_0f, hplane, shl64_div (by omega) 2, hfirst, and_30, and_0f, hsecond, and_0f, and_3, hthird, hfourth]
    rfl
  rw [utf16_encode_of_lt (by omega), singleton_append, wordAt_zero (by omega), if_neg (by omega)]
  by_cases h1 : c.val.toNat ≤ 0x7f
  · rw [if_neg (show ¬0x7ff < c.val.toNat by omega), if_pos (show c.val.toNat < 0x80 by omega), utf8_encode_one h1]
    rfl
  by_cases h2 : c.val.toNat ≤ 0x7ff
  · have hlead : c.val.toNat / 2 ^ 6 % 0x100 + 0xc0 = c.val.toNat / 64 % 32 + 0xc0 := by omega
    rw [if_neg (show ¬0x7ff < c.val.toNat by omega), if_neg (show ¬c.val.toNat < 0x80 by omega),
      utf8_encode_two (by omega) h2, shl64_div (by omega) 6, or_c0 (by omega), hlead]
    rfl
  have hlead : c.val.toNat / 2 ^ 12 % 0x100 + 0xe0 = c.val.toNat / 4096 % 16 + 0xe0 := by omega
  rw [if_pos (show 0x7ff < c.val.toNat by omega), utf8_encode_three (by omega) (by omega),
    shl64_div (by omega) 12, or_e0 (by omega), hlead]
  rfl

/-- The two converters from UTF-16 read the same. -/
theorem fst_utf16toUTF8 (s : List UInt16) : (utf16toUTF8 s).1 = (utf16toUTF32 s).1 := by
  unfold utf16toUTF8 utf16toUTF32
  simp only [and_f800, and_fc00]
  split_ifs <;> first | rfl | omega

theorem exists_char_utf16 {s : List UInt16} (hs : s ≠ []) (h : (utf16toUTF32 s).1 ≠ 0) :
    ∃ c rest, s = utf16.encode c ++ rest := by
  obtain ⟨a, s, rfl⟩ := exists_cons_of_ne_nil hs
  have ha := a.toNat_lt
  have hhead := wordAt_head a s
  unfold utf16toUTF32 at h
  simp only [and_f800, and_fc00, hhead, wordAt_succ] at h
  unfold highSurrogates lowSurrogates at h
  split_ifs at h with hsur hpair
  · have hv : a.toNat.isValidChar := by omega
    refine ⟨charOf a.toNat hv, s, ?_⟩
    rw [utf16_encode_of_lt (by rw [toNat_charOf]; exact ha), toNat_charOf, UInt16.ofNat_toNat]
    rfl
  · cases s with
    | nil => exact absurd hpair.2 (by decide)
    | cons b s =>
      have hb := b.toNat_lt
      rw [wordAt_head] at hpair
      have hv : (0x10000 + (a.toNat - 0xd800) * 1024 + (b.toNat - 0xdc00)).isValidChar := by omega
      have hhigh : 0xd800 + (0x10000 + (a.toNat - 0xd800) * 1024 + (b.toNat - 0xdc00) - 0x10000) /
          1024 = a.toNat := by omega
      have hlow : 0xdc00 + (0x10000 + (a.toNat - 0xd800) * 1024 + (b.toNat - 0xdc00) - 0x10000) %
          1024 = b.toNat := by omega
      refine ⟨charOf _ hv, s, ?_⟩
      rw [utf16_encode_of_le (by rw [toNat_charOf]; omega), toNat_charOf, hhigh, hlow,
        UInt16.ofNat_toNat, UInt16.ofNat_toNat]
      rfl
  exact absurd rfl h

theorem converts_utf16toUTF32 : Converts utf16 utf32 utf16toUTF32 where
  step_encode := step_utf16toUTF32
  encode_of_step _ := exists_char_utf16

theorem converts_utf16toUTF8 : Converts utf16 utf8 utf16toUTF8 where
  step_encode := step_utf16toUTF8
  encode_of_step s hs h := exists_char_utf16 hs (fst_utf16toUTF8 s ▸ h)

end Rpcsx.Ps3.CellL10n
