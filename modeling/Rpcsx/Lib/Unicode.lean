import Mathlib.Tactic.SplitIfs
import Rpcsx.Lib.UnitCode

/-!
# The codes of Unicode

UTF-8, UTF-16 and UTF-32 as codes of the characters, which are the numbers up to `0x10ffff` without
the surrogates.
-/

namespace Rpcsx.Lib

open UnitCode List

def charOf (v : Nat) (h : v.isValidChar) : Char := Char.ofNatAux v h

theorem toNat_charOf {v : Nat} (h : v.isValidChar) : (charOf v h).val.toNat = v := rfl

theorem toNat_lt (c : Char) : c.val.toNat < 0x110000 := by
  rcases c.valid with h | ⟨-, h⟩
  · exact Nat.lt_trans h (by decide)
  · exact h

theorem not_surrogate (c : Char) : c.val.toNat < 0xd800 ∨ 0xdfff < c.val.toNat := c.valid.imp_right And.left

/-- A byte is zero if its number is. -/
theorem eq_zero_of_ofNat8 {x : Nat} (hx : x < 256) (h : 0 = UInt8.ofNat x) : x = 0 := by
  have hnat := congrArg UInt8.toNat h
  rw [UInt8.toNat_ofNat', Nat.mod_eq_of_lt hx] at hnat
  exact hnat.symm

theorem eq_zero_of_ofNat16 {x : Nat} (hx : x < 65536) (h : 0 = UInt16.ofNat x) : x = 0 := by
  have hnat := congrArg UInt16.toNat h
  rw [UInt16.toNat_ofNat', Nat.mod_eq_of_lt hx] at hnat
  exact hnat.symm

def utf8 : UnitCode Char UInt8 where
  encode := String.utf8EncodeChar
  encode_ne_nil c := by
    unfold String.utf8EncodeChar
    dsimp only
    split_ifs <;> exact cons_ne_nil _ _
  encode_of_zero_mem c h := by
    unfold String.utf8EncodeChar at h ⊢
    dsimp only at h ⊢
    split_ifs at h ⊢ with h₁ h₂ h₃
    · rw [mem_singleton.mp h]
    -- the bytes of the longer forms all have their mark
    · simp only [mem_cons, not_mem_nil, or_false] at h
      rcases h with h | h <;> exact absurd (eq_zero_of_ofNat8 (by omega) h) (by omega)
    · simp only [mem_cons, not_mem_nil, or_false] at h
      rcases h with h | h | h <;> exact absurd (eq_zero_of_ofNat8 (by omega) h) (by omega)
    · simp only [mem_cons, not_mem_nil, or_false] at h
      rcases h with h | h | h | h <;> exact absurd (eq_zero_of_ofNat8 (by omega) h) (by omega)

/-- UTF-16: the numbers above `0xffff` are split over two surrogates. -/
def utf16 : UnitCode Char UInt16 where
  encode c :=
    let v := c.val.toNat
    if v < 0x10000 then [UInt16.ofNat v]
    else [UInt16.ofNat (0xd800 + (v - 0x10000) / 1024), UInt16.ofNat (0xdc00 + (v - 0x10000) % 1024)]
  encode_ne_nil c := by
    dsimp only
    split_ifs <;> exact cons_ne_nil _ _
  encode_of_zero_mem c h := by
    have hlt := toNat_lt c
    dsimp only at h ⊢
    split_ifs at h ⊢
    · rw [mem_singleton.mp h]
    · rcases mem_cons.mp h with h | h
      · exact absurd (eq_zero_of_ofNat16 (by omega) h) (by omega)
      · exact absurd (eq_zero_of_ofNat16 (by omega) (mem_singleton.mp h)) (by omega)

def utf32 : UnitCode Char UInt32 where
  encode c := [c.val]
  encode_ne_nil c := cons_ne_nil _ _
  encode_of_zero_mem c h := by
    rw [mem_singleton.mp h]

end Rpcsx.Lib
