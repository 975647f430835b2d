import Mathlib.Data.List.Basic

/-!
# Putting a stream together from its pieces

A stream is sent in chunks. The receiver keeps what has arrived as a list of pieces, each one with its position
in the stream, and takes from the front what follows without a gap. Positions count from `base` on.

`Laid` says that the pieces lie behind each other; then `consecutive` is how far they reach without a gap
(`Laid.buffered`, `Laid.not_buffered`). Pieces that are chunks, apart from the first one that may be the rest of
a chunk, are laid (`laid_of_pieces`).
-/

namespace Rpcsx.Lib.Reassembly

open List

variable {α : Type} {base hi lo : Nat} {x y : Nat × List α} {es es' : List (Nat × List α)}
  {chunks : List (List α)} {data : List α}

def Buffered (es : List (Nat × List α)) (q : Nat) : Prop := ∃ x ∈ es, x.1 ≤ q ∧ q < x.1 + x.2.length

/-- How far the pieces reach from `lo` on without a gap. -/
def consecutive : Nat → List (Nat × List α) → Nat
  | _, [] => 0
  | lo, x :: es => if x.1 = lo then x.2.length + consecutive (lo + x.2.length) es else 0

theorem consecutive_cons_self (lo : Nat) (data : List α) (es : List (Nat × List α)) :
    consecutive lo ((lo, data) :: es) = data.length + consecutive (lo + data.length) es := if_pos rfl

/-- Pieces between `lo` and `hi`, each one behind the one before and none of them empty. -/
def Laid (hi : Nat) : Nat → List (Nat × List α) → Prop
  | lo, [] => lo ≤ hi
  | lo, x :: es => lo ≤ x.1 ∧ 0 < x.2.length ∧ Laid hi (x.1 + x.2.length) es

/-! ## Laid pieces -/

section

variable (h : Laid hi lo es)

include h

theorem Laid.le : lo ≤ hi := by
  induction es generalizing lo with
  | nil => exact h
  | cons x es ih =>
    obtain ⟨hle, -, hlaid⟩ := h
    have := ih hlaid
    omega

theorem Laid.le_of_mem (hx : x ∈ es) : lo ≤ x.1 := by
  induction es generalizing lo with
  | nil => cases hx
  | cons y es ih =>
    obtain ⟨hle, hpos, hlaid⟩ := h
    obtain rfl | hx := mem_cons.mp hx
    · exact hle
    have := ih hlaid hx
    omega

theorem Laid.add_consecutive_le : lo + consecutive lo es ≤ hi := by
  induction es generalizing lo with
  | nil => exact h
  | cons x es ih =>
    obtain ⟨hle, hpos, hlaid⟩ := h
    unfold consecutive
    split
    · next heq =>
      subst heq
      have := ih hlaid
      omega
    have := hlaid.le
    omega

theorem Laid.buffered : ∀ i < consecutive lo es, Buffered es (lo + i) := by
  induction es generalizing lo with
  | nil =>
    intro i hi
    cases hi
  | cons x es ih =>
    obtain ⟨hle, hpos, hlaid⟩ := h
    intro i hi
    unfold consecutive at hi
    split at hi
    · next heq =>
      subst heq
      by_cases hlt : i < x.2.length
      · exact ⟨x, mem_cons_self, by omega, by omega⟩
      obtain ⟨y, hy, hcover⟩ := ih hlaid (i - x.2.length) (by omega)
      exact ⟨y, mem_cons_of_mem x hy, by omega, by omega⟩
    · cases hi

theorem Laid.not_buffered : ¬ Buffered es (lo + consecutive lo es) := by
  induction es generalizing lo with
  | nil =>
    rintro ⟨x, hx, -⟩
    cases hx
  | cons x es ih =>
    obtain ⟨hle, hpos, hlaid⟩ := h
    rintro ⟨y, hy, hcover⟩
    unfold consecutive at hcover
    split at hcover
    · next heq =>
      subst heq
      obtain rfl | hy := mem_cons.mp hy
      · omega
      · exact ih hlaid ⟨y, hy, by omega, by omega⟩
    obtain rfl | hy := mem_cons.mp hy
    · omega
    have := hlaid.le_of_mem hy
    omega

/-- More pieces do not reach less far. -/
theorem Laid.consecutive_mono (h' : Laid hi lo es') (hsub : es ⊆ es') : consecutive lo es ≤ consecutive lo es' := by
  by_contra hlt
  obtain ⟨x, hx, hcover⟩ := h.buffered (consecutive lo es') (by omega)
  exact h'.not_buffered ⟨x, hsub hx, hcover⟩

end

/-! ## Pieces of a stream -/

/-- A piece behind `lo`: a chunk, or the rest of a chunk if it begins at `lo`. -/
structure Piece (base : Nat) (chunks : List (List α)) (lo : Nat) (x : Nat × List α) : Prop where
  pos : 0 < x.2.length
  le : lo ≤ x.1
  cut : ∃ L R pre, chunks = L ++ (pre ++ x.2) :: R ∧ x.1 = base + L.flatten.length + pre.length ∧
    (pre = [] ∨ x.1 = lo)

theorem Piece.of_chunk {L R : List (List α)} (hpos : 0 < data.length)
    (hle : lo ≤ base + L.flatten.length) : Piece base (L ++ data :: R) lo (base + L.flatten.length, data) :=
  ⟨hpos, hle, L, R, [], rfl, rfl, .inl rfl⟩

/-- The stream gets longer. -/
theorem Piece.append (h : Piece base chunks lo x) (more : List (List α)) : Piece base (chunks ++ more) lo x := by
  obtain ⟨L, R, pre, rfl, hx, hpre⟩ := h.cut
  exact ⟨h.pos, h.le, L, R ++ more, pre, append_assoc _ _ _, hx, hpre⟩

theorem Piece.length_le (h : Piece base chunks lo x) : ∃ chunk ∈ chunks, x.2.length ≤ chunk.length := by
  obtain ⟨L, R, pre, rfl, -, -⟩ := h.cut
  refine ⟨pre ++ x.2, mem_append_right L mem_cons_self, ?_⟩
  rw [length_append]
  exact Nat.le_add_left _ _

/-- A piece is what the stream has at its position. -/
theorem Piece.isPrefix_drop (h : Piece base chunks lo x) :
    base ≤ x.1 ∧ x.1 + x.2.length ≤ base + chunks.flatten.length ∧ x.2 <+: chunks.flatten.drop (x.1 - base) := by
  obtain ⟨L, R, pre, rfl, hx, -⟩ := h.cut
  have hstream : (L ++ (pre ++ x.2) :: R).flatten = (L.flatten ++ pre) ++ (x.2 ++ R.flatten) := by simp [append_assoc]
  have hoffset : x.1 - base = (L.flatten ++ pre).length := by
    rw [length_append]
    omega
  rw [hstream, hoffset, drop_left]
  refine ⟨by omega, ?_, prefix_append _ _⟩
  simp only [length_append]
  omega

/-- A chunk that begins behind the beginning of another one begins behind its end. -/
theorem flatten_length_le_of_lt {L L' R R' : List (List α)} {c c' : List α}
    (heq : L ++ c :: R = L' ++ c' :: R') (hlt : L.flatten.length < L'.flatten.length) :
    L.flatten.length + c.length ≤ L'.flatten.length := by
  obtain ⟨M, hL', hrest⟩ | ⟨M, hL, -⟩ := append_eq_append_iff.mp heq
  · cases M with
    | nil =>
      rw [hL', append_nil] at hlt
      exact absurd hlt (Nat.lt_irrefl _)
    | cons m M =>
      obtain rfl := (List.cons.inj hrest).1
      rw [hL']
      simp
  rw [hL, flatten_append, length_append] at hlt
  omega

/-- Of two pieces the second one lies behind the first, and is a chunk. -/
theorem Piece.advance (hx : Piece base chunks lo x) (hy : Piece base chunks lo y) (hlt : x.1 < y.1)
    {lo' : Nat} (hlo' : lo' ≤ x.1 + x.2.length) : Piece base chunks lo' y := by
  obtain ⟨L, R, pre, hchunks, hxpos, -⟩ := hx.cut
  obtain ⟨L', R', pre', hchunks', hypos, hpre⟩ := hy.cut
  have hle := hx.le
  obtain rfl : pre' = [] := hpre.resolve_right (by omega)
  rw [length_nil, Nat.add_zero] at hypos
  have hend := flatten_length_le_of_lt (hchunks.symm.trans hchunks') (by omega)
  rw [length_append] at hend
  exact ⟨hy.pos, by omega, L', R', [], hchunks', hypos, .inl rfl⟩

/-- The rest of a piece of which `n` places have been taken. -/
theorem Piece.drop {key n : Nat} (h : Piece base chunks lo (key, data)) (hn : n < data.length) :
    Piece base chunks (key + n) (key + n, data.drop n) := by
  obtain ⟨L, R, pre, hchunks, hkey, -⟩ := h.cut
  refine ⟨?_, Nat.le_refl _, L, R, pre ++ data.take n, ?_, ?_, .inr rfl⟩
  · rw [length_drop]
    omega
  · rw [append_assoc, take_append_drop]
    exact hchunks
  rw [length_append, length_take_of_le (Nat.le_of_lt hn)]
  omega

theorem laid_of_pieces (hsorted : es.Pairwise (fun x y => x.1 < y.1))
    (hpieces : ∀ x ∈ es, Piece base chunks lo x) (hlo : lo ≤ base + chunks.flatten.length) :
    Laid (base + chunks.flatten.length) lo es := by
  induction es generalizing lo with
  | nil => exact hlo
  | cons x es ih =>
    obtain ⟨hfirst, hsorted⟩ := pairwise_cons.mp hsorted
    have hx := hpieces x mem_cons_self
    refine ⟨hx.le, hx.pos, ih hsorted ?_ hx.isPrefix_drop.2.1⟩
    intro y hy
    exact hx.advance (hpieces y (mem_cons_of_mem x hy)) (hfirst y hy) (Nat.le_refl _)

end Rpcsx.Lib.Reassembly
