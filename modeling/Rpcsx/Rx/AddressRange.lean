import Mathlib.Data.UInt
import Mathlib.Order.MinMax

/-!
# `rx::AddressRange`

Half-open ranges of 64-bit addresses. Addresses are natural numbers; the arithmetic that the
source does in `std::uint64_t` wraps explicitly (`u64`), comparisons need no care.
-/

namespace Rpcsx.Rx

def u64 (x : Nat) : Nat := x % 0x10000000000000000

theorem u64_of_lt {x : Nat} (h : x < 2 ^ 64) : u64 x = x := Nat.mod_eq_of_lt h

def u64Sub (x y : Nat) : Nat := if y ≤ x then x - y else 0x10000000000000000 - (y - x)

theorem u64Sub_of_le {x y : Nat} (h : y ≤ x) : u64Sub x y = x - y := if_pos h

/-- `rx::alignUp` for a power-of-two alignment: `(value + (alignment - 1)) & ~(alignment - 1)`. -/
def alignUp (value alignment : Nat) : Nat :=
  let v := u64 (value + (alignment - 1))
  v - v % alignment

/-- `rx::alignDown` for a power-of-two alignment: `value & ~(alignment - 1)`. -/
def alignDown (value alignment : Nat) : Nat := value - value % alignment

section Align

variable {value al : Nat}

theorem dvd_alignUp (value al : Nat) : al ∣ alignUp value al := Nat.dvd_sub_mod _

theorem le_alignUp (value : Nat) (hpos : 0 < al) (h : value + (al - 1) < 2 ^ 64) : value ≤ alignUp value al := by
  have hmod := Nat.mod_lt (value + (al - 1)) hpos
  show value ≤ u64 (value + (al - 1)) - u64 (value + (al - 1)) % al
  rw [u64_of_lt h]
  omega

/-- Nothing smaller will do. -/
theorem alignUp_le (hpos : 0 < al) (h : value + (al - 1) < 2 ^ 64) {a : Nat}
    (ha : al ∣ a) (hle : value ≤ a) : alignUp value al ≤ a := by
  show u64 (value + (al - 1)) - u64 (value + (al - 1)) % al ≤ a
  rw [u64_of_lt h]
  obtain ⟨m, rfl⟩ := ha
  -- otherwise the multiple after `a` would be reached
  have hdiv := Nat.div_add_mod (value + (al - 1)) al
  have hlt : (value + (al - 1)) / al < m + 1 := by
    apply Nat.div_lt_of_lt_mul
    rw [Nat.mul_succ]
    omega
  have hmul := Nat.mul_le_mul_left al (Nat.lt_succ_iff.mp hlt)
  omega

theorem alignUp_eq_self (hpos : 0 < al) (h : value + (al - 1) < 2 ^ 64)
    (hdvd : al ∣ value) : alignUp value al = value :=
  le_antisymm (alignUp_le hpos h hdvd le_rfl) (le_alignUp value hpos h)

section PowerOfTwo

variable (hpos : 0 < al) (hdvd : al ∣ 2 ^ 64)

include hpos hdvd

theorem alignUp_add_lt (value : Nat) : alignUp value al + (al - 1) < 2 ^ 64 := by
  have hlt : alignUp value al < 2 ^ 64 := (Nat.sub_le _ _).trans_lt (Nat.mod_lt _ (by decide))
  obtain ⟨m, hm⟩ := dvd_alignUp value al
  obtain ⟨n, hn⟩ := hdvd
  rw [hm, hn] at hlt ⊢
  have := Nat.mul_le_mul_left al (Nat.lt_of_mul_lt_mul_left hlt)
  rw [Nat.mul_succ] at this
  omega

/-- Rounding up a bound first makes no difference. -/
theorem alignUp_max {k b : Nat} (hk : k + (al - 1) < 2 ^ 64) (hb : b + (al - 1) < 2 ^ 64) :
    alignUp (max k (alignUp b al)) al = alignUp (max k b) al := by
  have hround := alignUp_add_lt hpos hdvd b
  have h1 := le_alignUp (max k b) hpos (by omega)
  have h2 := le_alignUp (max k (alignUp b al)) hpos (by omega)
  apply le_antisymm
  · exact alignUp_le hpos (by omega) (dvd_alignUp _ _)
      (max_le (by omega) (alignUp_le hpos hb (dvd_alignUp _ _) (by omega)))
  have := le_alignUp b hpos hb
  exact alignUp_le hpos (by omega) (dvd_alignUp _ _) (by omega)

end PowerOfTwo

theorem dvd_alignDown (value al : Nat) : al ∣ alignDown value al := Nat.dvd_sub_mod _

theorem alignDown_le (value al : Nat) : alignDown value al ≤ value := Nat.sub_le _ _

theorem le_alignDown {a : Nat} (ha : al ∣ a) (hle : a ≤ value) : a ≤ alignDown value al := by
  obtain ⟨m, rfl⟩ := ha
  have hdiv := Nat.div_add_mod value al
  obtain rfl | hpos := Nat.eq_zero_or_pos al
  · rw [Nat.zero_mul]
    exact Nat.zero_le _
  have hle' : m ≤ value / al := by
    rw [Nat.le_div_iff_mul_le hpos, Nat.mul_comm]
    exact hle
  have hmul := Nat.mul_le_mul_left al hle'
  show al * m ≤ value - value % al
  omega

end Align

structure AddressRange where
  beginAddress : Nat
  endAddress : Nat
  deriving DecidableEq, Repr

namespace AddressRange

/-- The default-constructed range: begin `-1`, end `0`, not valid. -/
instance : Inhabited AddressRange := ⟨⟨0x10000000000000000 - 1, 0⟩⟩

def fromBeginEnd (b e : Nat) : AddressRange := ⟨b, e⟩

def fromBeginSize (b size : Nat) : AddressRange := ⟨b, u64 (b + size)⟩

def isValid (r : AddressRange) : Bool := r.beginAddress < r.endAddress

def contains (r other : AddressRange) : Bool :=
  r.beginAddress ≤ other.beginAddress && other.endAddress ≤ r.endAddress

def containsAddr (r : AddressRange) (address : Nat) : Bool :=
  r.beginAddress ≤ address && address < r.endAddress

def intersection (r other : AddressRange) : AddressRange :=
  ⟨max r.beginAddress other.beginAddress, min r.endAddress other.endAddress⟩

def size (r : AddressRange) : Nat := u64Sub r.endAddress r.beginAddress

/-- Below, in and above a range. -/
theorem ite_range {α β : Type} (f : α → β) {a b e : Nat} {x y z : α} {w : β} (hbelow : a < b → f x = w)
    (habove : e ≤ a → f z = w) :
    f (if a < b then x else if a < e then y else z) = if b ≤ a ∧ a < e then f y else w := by
  by_cases hab : a < b
  · rw [if_pos hab, if_neg (fun h => absurd h.1 (not_le.mpr hab)), hbelow hab]
  by_cases hae : a < e
  · rw [if_neg hab, if_pos hae, if_pos ⟨not_lt.mp hab, hae⟩]
  · rw [if_neg hab, if_neg hae, if_neg (fun h => hae h.2), habove (not_lt.mp hae)]

/-- Membership of an address, the meaning of a range. -/
instance : Membership Nat AddressRange where
  mem r a := r.beginAddress ≤ a ∧ a < r.endAddress

instance (a : Nat) (r : AddressRange) : Decidable (a ∈ r) :=
  inferInstanceAs (Decidable (r.beginAddress ≤ a ∧ a < r.endAddress))

variable {r : AddressRange}

theorem mem_def {a : Nat} : a ∈ r ↔ r.beginAddress ≤ a ∧ a < r.endAddress := Iff.rfl

@[simp] theorem isValid_iff : r.isValid ↔ r.beginAddress < r.endAddress := by simp [isValid]

@[simp] theorem containsAddr_iff {a : Nat} : r.containsAddr a ↔ a ∈ r := by simp [containsAddr, mem_def]

end AddressRange

end Rpcsx.Rx
