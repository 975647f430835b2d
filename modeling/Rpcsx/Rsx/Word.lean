/-!
# Words of the renderer

The arithmetic of `u32`, on numbers below `2 ^ 32`.
-/

namespace Rpcsx.Rsx

def u32 (n : Nat) : Nat := n % 0x100000000

def u32Sub (a b : Nat) : Nat := u32 (a + (0x100000000 - b))

theorem u32_of_lt {n : Nat} (h : n < 0x100000000) : u32 n = n := Nat.mod_eq_of_lt h

theorem u32_lt (n : Nat) : u32 n < 0x100000000 := Nat.mod_lt n (by decide)

/-- Differences from one number are different. -/
theorem u32Sub_inj {a b c : Nat} (ha : a < 0x100000000) (hb : b < 0x100000000)
    (h : u32Sub a c = u32Sub b c) : a = b := by
  unfold u32Sub u32 at h
  omega

end Rpcsx.Rsx
