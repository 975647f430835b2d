import Rpcsx.Ps3.CellL10n.Chars

/-!
# The converters from UTF-8

Both converters from UTF-8 take the bytes apart in their own way: one puts the number of the character
together, the other the surrogates at once. They read the same, and what they read is the first
character of a well-formed text.
-/

namespace Rpcsx.Ps3.CellL10n

open Lib UnitCode List Option

/-! ## What is read -/

theorem byteAt_zero {x : Nat} (hx : x < 0x100) (rest : List UInt8) : byteAt (UInt8.ofNat x :: rest) 0 = x := by
  rw [byteAt, getD_cons_zero, UInt8.toNat_ofNat', Nat.mod_eq_of_lt hx]

theorem byteAt_succ (a : UInt8) (rest : List UInt8) (i : Nat) : byteAt (a :: rest) (i + 1) = byteAt rest i := rfl

theorem byteAt_lt (src : List UInt8) (i : Nat) : byteAt src i < 0x100 := UInt8.toNat_lt _

def Follows (b : Nat) : Prop := 0x80 ≤ b ∧ b < 0xc0

instance (b : Nat) : Decidable (Follows b) := inferInstanceAs (Decidable (_ ∧ _))

section Lead

variable {b : Nat}

theorem follows_iff (h : b < 0x100) : b / 64 % 4 * 64 = 0x80 ↔ Follows b := by
  unfold Follows
  omega

theorem lead_four_iff (h : b < 0x100) : b / 8 % 32 * 8 = 0xf0 ↔ 0xf0 ≤ b ∧ b < 0xf8 := by omega

theorem lead_three_iff (h : b < 0x100) : b / 16 % 16 * 16 = 0xe0 ↔ 0xe0 ≤ b ∧ b < 0xf0 := by omega

theorem lead_two_iff (h : b < 0x100) : (b / 32 % 8 * 32 = 0xc0 ∧ 0xc1 < b) ↔ 0xc2 ≤ b ∧ b < 0xe0 := by omega

end Lead

/-- What both converters read from four bytes: the number of bytes read and the number of the
character. -/
def readUtf8 (b₀ b₁ b₂ b₃ : Nat) : Option (Nat × Nat) :=
  let v₂ := b₀ % 32 * 64 + b₁ % 64
  let v₃ := b₀ % 16 * 4096 + b₁ % 64 * 64 + b₂ % 64
  let v₄ := b₀ % 8 * 262144 + b₁ % 64 * 4096 + b₂ % 64 * 64 + b₃ % 64
  if 0xf0 ≤ b₀ ∧ b₀ < 0xf8 then
    if (Follows b₁ ∧ Follows b₂ ∧ Follows b₃) ∧ 0x10000 ≤ v₄ ∧ v₄ < 0x110000 then some (4, v₄)
    else none
  else if 0xe0 ≤ b₀ ∧ b₀ < 0xf0 then
    if (Follows b₁ ∧ Follows b₂) ∧ 0x800 ≤ v₃ ∧ (v₃ < 0xd800 ∨ 0xdfff < v₃) then some (3, v₃)
    else none
  else if 0xc2 ≤ b₀ ∧ b₀ < 0xe0 then
    if Follows b₁ then some (2, v₂) else none
  else if 0x80 ≤ b₀ then none
  else some (1, b₀)

/-- The checks, one after the other and each with its own way out. -/
theorem elim_readUtf8 {β : Type} (b₀ b₁ b₂ b₃ : Nat) (y : β) (f : Nat × Nat → β) :
    (readUtf8 b₀ b₁ b₂ b₃).elim y f =
      let v₃ := b₀ % 16 * 4096 + b₁ % 64 * 64 + b₂ % 64
      let v₄ := b₀ % 8 * 262144 + b₁ % 64 * 4096 + b₂ % 64 * 64 + b₃ % 64
      if 0xf0 ≤ b₀ ∧ b₀ < 0xf8 then
        if Follows b₁ ∧ Follows b₂ ∧ Follows b₃ then if 0x10000 ≤ v₄ ∧ v₄ < 0x110000 then f (4, v₄) else y else y
      else if 0xe0 ≤ b₀ ∧ b₀ < 0xf0 then
        if Follows b₁ ∧ Follows b₂ then if 0x800 ≤ v₃ ∧ (v₃ < 0xd800 ∨ 0xdfff < v₃) then f (3, v₃) else y else y
      else if 0xc2 ≤ b₀ ∧ b₀ < 0xe0 then if Follows b₁ then f (2, b₀ % 32 * 64 + b₁ % 64) else y
      else if 0x80 ≤ b₀ then y else f (1, b₀) := by
  simp only [readUtf8, ite_and, apply_ite (Option.elim · y f), elim_some, elim_none]

theorem utf8toUTF32_eq (src : List UInt8) : utf8toUTF32 src =
      (readUtf8 (byteAt src 0) (byteAt src 1) (byteAt src 2) (byteAt src 3)).elim (0, [])
        fun r => (r.1, [UInt32.ofNat r.2]) := by
  have h0 := byteAt_lt src 0
  have h1 := byteAt_lt src 1
  have h2 := byteAt_lt src 2
  have h3 := byteAt_lt src 3
  have hfour {v : Nat} (hv : v < 0x200000) : 0xfffff < low32 (sub64 v 0x10000) ↔ ¬(0x10000 ≤ v ∧ v < 0x110000) := by
    unfold low32 sub64
    omega
  have hthree {v : Nat} (hv : v < 0x10000) :
      (v < 0x800 ∨ low32 (sub64 v highSurrogates) < 0x800) ↔ ¬(0x800 ≤ v ∧ (v < 0xd800 ∨ 0xdfff < v)) := by
    unfold low32 sub64 highSurrogates
    omega
  simp (disch := omega) only [elim_readUtf8, utf8toUTF32, and_f8, and_f0, and_e0, and_c0, join_two, join_three, join_four, follows_iff h1,
    follows_iff h2, follows_iff h3, lead_four_iff h0, lead_three_iff h0, lead_two_iff h0, ne_eq, ← not_and_or, hfour,
    hthree, ite_not]

/-! ## What is written in UTF-16 -/

def unitsUtf16 (v : Nat) : List UInt16 :=
  if v < 0x10000 then [UInt16.ofNat v]
  else [UInt16.ofNat (0xd800 + (v - 0x10000) / 1024), UInt16.ofNat (0xdc00 + (v - 0x10000) % 1024)]

/-- The plane of a character of four bytes. -/
theorem join_plane {b₀ b₁ b₂ b₃ v : Nat} (hv : b₀ % 8 * 262144 + b₁ % 64 * 4096 + b₂ % 64 * 64 + b₃ % 64 = v) :
    (b₀ &&& 7) <<< 2 ||| ((b₁ >>> 4) &&& 3) = v / 65536 := by
  rw [and_7, and_3, Nat.shiftLeft_eq, Nat.shiftRight_eq_div_pow, or_eq_add 2 (by omega) (by omega)]
  omega

/-- The surrogates that are put together from the bytes of a character of four bytes. -/
theorem unitsUtf16_four {b₀ b₁ b₂ b₃ v : Nat}
    (hv : b₀ % 8 * 262144 + b₁ % 64 * 4096 + b₂ % 64 * 64 + b₃ % 64 = v) (hlow : 0x10000 ≤ v) (hhigh : v < 0x110000) :
    [UInt16.ofNat ((b₁ &&& 0xf) <<< 2 ||| ((b₂ >>> 4) &&& 3) |||
          (low32 (sub64 ((b₀ &&& 7) <<< 2 ||| ((b₁ >>> 4) &&& 3)) 1) <<< 6) % 0x10000 ||| highSurrogates),
        UInt16.ofNat ((b₂ &&& 0xf) <<< 6 ||| (b₃ &&& 0x3f) ||| lowSurrogates)] = unitsUtf16 v := by
  have hsub : low32 (sub64 (v / 65536) 1) = v / 65536 - 1 := by
    unfold low32 sub64
    omega
  have hten : b₁ % 16 * 2 ^ 2 ||| b₂ / 2 ^ 4 % 4 = b₁ % 16 * 4 + b₂ / 16 % 4 := or_eq_add 2 (by omega) (by omega)
  have hjoin : b₁ % 16 * 4 + b₂ / 16 % 4 ||| (v / 65536 - 1) * 2 ^ 6 % 0x10000 =
      b₁ % 16 * 4 + b₂ / 16 % 4 + (v / 65536 - 1) * 2 ^ 6 % 0x10000 :=
    or_eq_add' 6 (by omega) (by omega)
  have hlast : b₂ % 16 * 2 ^ 6 ||| b₃ % 64 = b₂ % 16 * 64 + b₃ % 64 := or_eq_add 6 (by omega) (by omega)
  have hfirst : b₁ % 16 * 4 + b₂ / 16 % 4 + (v / 65536 - 1) * 2 ^ 6 % 0x10000 + 0xd800 =
      0xd800 + (v - 0x10000) / 1024 := by omega
  have hsecond : b₂ % 16 * 64 + b₃ % 64 + 0xdc00 = 0xdc00 + (v - 0x10000) % 1024 := by omega
  rw [join_plane hv, hsub, and_0f, and_0f, and_3, and_3f, Nat.shiftLeft_eq, Nat.shiftLeft_eq,
    Nat.shiftLeft_eq, Nat.shiftRight_eq_div_pow, hten, hjoin, or_d800 (by omega), hfirst, hlast,
    or_dc00 (by omega), hsecond, unitsUtf16, if_neg (by omega)]

theorem utf8toUTF16_eq (src : List UInt8) : utf8toUTF16 src =
      (readUtf8 (byteAt src 0) (byteAt src 1) (byteAt src 2) (byteAt src 3)).elim (0, [])
        fun r => (r.1, unitsUtf16 r.2) := by
  have h0 := byteAt_lt src 0
  have h1 := byteAt_lt src 1
  have h2 := byteAt_lt src 2
  have h3 := byteAt_lt src 3
  have hunits {v : Nat} (hv : v < 0x10000) : [UInt16.ofNat v] = unitsUtf16 v := (if_pos hv).symm
  have hthree {v : Nat} (hv : v < 0x10000) :
      (0x7ff < v ∧ ¬low32 v &&& surrogatesMask1 = highSurrogates) ↔ 0x800 ≤ v ∧ (v < 0xd800 ∨ 0xdfff < v) := by
    rw [and_f800, low32, highSurrogates]
    omega
  simp (disch := omega) only [elim_readUtf8, utf8toUTF16, and_f8, and_f0, and_e0, and_c0, join_two, join_three,
    follows_iff h1, follows_iff h2, follows_iff h3, lead_four_iff h0, lead_three_iff h0, lead_two_iff h0, ne_eq, ite_not,
    hunits, hthree]
  -- only the characters of four bytes are put together in another way
  refine if_congr Iff.rfl ?_ rfl
  generalize hv : byteAt src 0 % 8 * 262144 + byteAt src 1 % 64 * 4096 + byteAt src 2 % 64 * 64 + byteAt src 3 % 64 = v
  have hrange : sub64 (v / 65536) 1 % 0x10000 < 0x10 ↔ 0x10000 ≤ v ∧ v < 0x110000 := by
    rw [sub64]
    omega
  rw [← join_plane hv] at hrange
  rw [← ite_and, if_congr hrange rfl rfl]
  split_ifs with _ hok
  · rw [unitsUtf16_four hv hok.1 hok.2]
  all_goals rfl

/-! ## Characters -/

/-- The first character of a text is read. -/
theorem readUtf8_encode (c : Char) (rest : List UInt8) :
    readUtf8 (byteAt (utf8.encode c ++ rest) 0) (byteAt (utf8.encode c ++ rest) 1)
        (byteAt (utf8.encode c ++ rest) 2) (byteAt (utf8.encode c ++ rest) 3) =
      some ((utf8.encode c).length, c.val.toNat) := by
  have hlt := toNat_lt c
  have hsur := not_surrogate c
  by_cases h1 : c.val.toNat ≤ 0x7f
  · rw [utf8_encode_one h1, singleton_append, byteAt_zero (by omega), readUtf8,
      if_neg (by omega), if_neg (by omega), if_neg (by omega), if_neg (by omega)]
    rfl
  by_cases h2 : c.val.toNat ≤ 0x7ff
  · rw [utf8_encode_two (by omega) h2, cons_append, byteAt_zero (by omega), byteAt_succ,
      singleton_append, byteAt_zero (by omega), readUtf8, if_neg (by omega),
      if_neg (by omega), if_pos (by omega), if_pos ⟨by omega, by omega⟩]
    have hval : (c.val.toNat / 64 % 32 + 0xc0) % 32 * 64 + (c.val.toNat % 64 + 0x80) % 64 = c.val.toNat := by omega
    rw [hval]
    rfl
  by_cases h3 : c.val.toNat ≤ 0xffff
  · have hval : (c.val.toNat / 4096 % 16 + 0xe0) % 16 * 4096 +
        (c.val.toNat / 64 % 64 + 0x80) % 64 * 64 + (c.val.toNat % 64 + 0x80) % 64 =
        c.val.toNat := by omega
    rw [utf8_encode_three (by omega) h3, cons_append, byteAt_zero (by omega), byteAt_succ,
      cons_append, byteAt_zero (by omega), byteAt_succ, byteAt_succ, singleton_append,
      byteAt_zero (by omega), readUtf8, if_neg (by omega), if_pos (by omega), hval,
      if_pos ⟨⟨⟨by omega, by omega⟩, by omega, by omega⟩, by omega, by omega⟩]
    rfl
  have hval : (c.val.toNat / 262144 % 8 + 0xf0) % 8 * 262144 +
      (c.val.toNat / 4096 % 64 + 0x80) % 64 * 4096 + (c.val.toNat / 64 % 64 + 0x80) % 64 * 64 +
      (c.val.toNat % 64 + 0x80) % 64 = c.val.toNat := by omega
  rw [utf8_encode_four (by omega), cons_append, byteAt_zero (by omega), byteAt_succ,
    cons_append, byteAt_zero (by omega), byteAt_succ, byteAt_succ, cons_append,
    byteAt_zero (by omega), byteAt_succ, byteAt_succ, byteAt_succ, singleton_append,
    byteAt_zero (by omega), readUtf8, if_pos (by omega), hval,
    if_pos ⟨⟨⟨by omega, by omega⟩, ⟨by omega, by omega⟩, by omega, by omega⟩, by omega, by omega⟩]
  rfl

/-- A byte that follows is there. -/
theorem exists_cons_of_follows {s : List UInt8} (h : Follows (byteAt s 0)) : ∃ b t, s = b :: t ∧ Follows b.toNat := by
  cases s with
  | nil => exact absurd h (by decide)
  | cons b t => exact ⟨b, t, rfl, h⟩

section Bytes

variable {a b c d : UInt8}

theorem exists_encode_two (ha : 0xc2 ≤ a.toNat ∧ a.toNat < 0xe0) (hb : Follows b.toNat) :
    ∃ char, utf8.encode char = [a, b] := by
  unfold Follows at hb
  have hv : (a.toNat % 32 * 64 + b.toNat % 64).isValidChar := .inl (by omega)
  have hfirst : (a.toNat % 32 * 64 + b.toNat % 64) / 64 % 32 + 0xc0 = a.toNat := by omega
  have hsecond : (a.toNat % 32 * 64 + b.toNat % 64) % 64 + 0x80 = b.toNat := by omega
  refine ⟨charOf _ hv, ?_⟩
  rw [utf8_encode_two (by rw [toNat_charOf]; omega) (by rw [toNat_charOf]; omega), toNat_charOf,
    hfirst, hsecond, UInt8.ofNat_toNat, UInt8.ofNat_toNat]

theorem exists_encode_three (ha : 0xe0 ≤ a.toNat ∧ a.toNat < 0xf0) (hb : Follows b.toNat)
    (hc : Follows c.toNat) {v : Nat}
    (hv : v = a.toNat % 16 * 4096 + b.toNat % 64 * 64 + c.toNat % 64) (hlow : 0x800 ≤ v)
    (hsur : v < 0xd800 ∨ 0xdfff < v) : ∃ char, utf8.encode char = [a, b, c] := by
  unfold Follows at hb hc
  have hvalid : v.isValidChar := by omega
  have hfirst : v / 4096 % 16 + 0xe0 = a.toNat := by omega
  have hsecond : v / 64 % 64 + 0x80 = b.toNat := by omega
  have hthird : v % 64 + 0x80 = c.toNat := by omega
  refine ⟨charOf v hvalid, ?_⟩
  rw [utf8_encode_three (by rw [toNat_charOf]; omega) (by rw [toNat_charOf]; omega), toNat_charOf,
    hfirst, hsecond, hthird, UInt8.ofNat_toNat, UInt8.ofNat_toNat, UInt8.ofNat_toNat]

theorem exists_encode_four (ha : 0xf0 ≤ a.toNat ∧ a.toNat < 0xf8) (hb : Follows b.toNat)
    (hc : Follows c.toNat) (hd : Follows d.toNat) {v : Nat}
    (hv : v = a.toNat % 8 * 262144 + b.toNat % 64 * 4096 + c.toNat % 64 * 64 + d.toNat % 64)
    (hlow : 0x10000 ≤ v) (hhigh : v < 0x110000) : ∃ char, utf8.encode char = [a, b, c, d] := by
  unfold Follows at hb hc hd
  have hvalid : v.isValidChar := .inr ⟨by omega, hhigh⟩
  have hfirst : v / 262144 % 8 + 0xf0 = a.toNat := by omega
  have hsecond : v / 4096 % 64 + 0x80 = b.toNat := by omega
  have hthird : v / 64 % 64 + 0x80 = c.toNat := by omega
  have hfourth : v % 64 + 0x80 = d.toNat := by omega
  refine ⟨charOf v hvalid, ?_⟩
  rw [utf8_encode_four (by rw [toNat_charOf]; exact hlow), toNat_charOf, hfirst, hsecond, hthird,
    hfourth, UInt8.ofNat_toNat, UInt8.ofNat_toNat, UInt8.ofNat_toNat, UInt8.ofNat_toNat]

end Bytes

/-- What is read is a character. -/
theorem exists_char_utf8 {s : List UInt8} (hs : s ≠ [])
    (h : readUtf8 (byteAt s 0) (byteAt s 1) (byteAt s 2) (byteAt s 3) ≠ none) :
    ∃ char rest, s = utf8.encode char ++ rest := by
  obtain ⟨a, s, rfl⟩ := exists_cons_of_ne_nil hs
  unfold readUtf8 at h
  dsimp only at h
  split_ifs at h with hfour hok hthree hok htwo hok hone
  · obtain ⟨⟨hb, hc, hd⟩, hlow, hhigh⟩ := hok
    obtain ⟨b, s, rfl, hb⟩ := exists_cons_of_follows hb
    obtain ⟨c, s, rfl, hc⟩ := exists_cons_of_follows hc
    obtain ⟨d, s, rfl, hd⟩ := exists_cons_of_follows hd
    obtain ⟨char, hchar⟩ := exists_encode_four hfour hb hc hd rfl hlow hhigh
    exact ⟨char, s, by rw [hchar]; rfl⟩
  · exact absurd rfl h
  · obtain ⟨⟨hb, hc⟩, hlow, hsur⟩ := hok
    obtain ⟨b, s, rfl, hb⟩ := exists_cons_of_follows hb
    obtain ⟨c, s, rfl, hc⟩ := exists_cons_of_follows hc
    obtain ⟨char, hchar⟩ := exists_encode_three hthree hb hc rfl hlow hsur
    exact ⟨char, s, by rw [hchar]; rfl⟩
  · exact absurd rfl h
  · obtain ⟨b, s, rfl, hb⟩ := exists_cons_of_follows hok
    obtain ⟨char, hchar⟩ := exists_encode_two htwo hb
    exact ⟨char, s, by rw [hchar]; rfl⟩
  · exact absurd rfl h
  · exact absurd rfl h
  have ha : a.toNat ≤ 0x7f := Nat.le_of_lt_succ (Nat.not_le.mp hone)
  have hv : a.toNat.isValidChar := .inl (by omega)
  refine ⟨charOf a.toNat hv, s, ?_⟩
  rw [utf8_encode_one (by rw [toNat_charOf]; exact ha), toNat_charOf, UInt8.ofNat_toNat]
  rfl

theorem converts_utf8toUTF32 : Converts utf8 utf32 utf8toUTF32 where
  step_encode c rest := by
    rw [utf8toUTF32_eq, readUtf8_encode, elim_some, UInt32.ofNat_toNat]
    rfl
  encode_of_step s hs h := by
    rw [utf8toUTF32_eq] at h
    refine exists_char_utf8 hs fun hnone => ?_
    rw [hnone] at h
    exact h rfl

theorem converts_utf8toUTF16 : Converts utf8 utf16 utf8toUTF16 where
  step_encode c rest := by
    rw [utf8toUTF16_eq, readUtf8_encode, elim_some]
    rfl
  encode_of_step s hs h := by
    rw [utf8toUTF16_eq] at h
    refine exists_char_utf8 hs fun hnone => ?_
    rw [hnone] at h
    exact h rfl

end Rpcsx.Ps3.CellL10n
