import Mathlib.Data.List.Basic
import Mathlib.Data.Nat.ModEq

/-!
# Rings as tapes

A ring of `n` places is written round and round. Unrolled, it is a tape without end of which place `p`
is the place `p % n` of the ring: writing goes on at `put`, may not reach `limit`, and what was written
before the window of `n` places that ends at `limit` is lost. A mark remembers how far the tape has been
written; releasing a mark moves the limit to the last place of the window that begins there.
-/

namespace Rpcsx.Lib

open List

structure Span (β : Type) where
  start : Nat
  length : Nat
  data : β

/-- How far a tape was written, and in how many spans. -/
structure Mark where
  pos : Nat
  count : Nat

structure Tape (β : Type) where
  put : Nat
  limit : Nat
  spans : List (Span β)
  marks : List Mark
  released : Nat

namespace Tape

variable {β : Type} {n : Nat} {T : Tape β}

def empty (n : Nat) : Tape β := ⟨0, n - 1, [], [], 0⟩

def write (T : Tape β) (start length : Nat) (data : β) : Tape β :=
  { T with put := start + length, spans := T.spans ++ [⟨start, length, data⟩] }

def mark (T : Tape β) : Tape β := { T with marks := T.marks ++ [⟨T.put, T.spans.length⟩] }

def release (n : Nat) (T : Tape β) (m : Mark) (marks : List Mark) : Tape β :=
  { T with limit := m.pos + n - 1, marks := marks, released := m.count }

/-- What is not released lies in the window, and every mark can be released. -/
structure Valid (n : Nat) (T : Tape β) : Prop where
  room : T.put < T.limit
  window : T.limit < T.put + n
  ordered : T.spans.Pairwise fun a b => a.start + a.length ≤ b.start
  written : ∀ a ∈ T.spans, a.start + a.length ≤ T.put
  live : ∀ a ∈ T.spans.drop T.released, T.limit < a.start + n
  inWindow : ∀ m ∈ T.marks, T.limit < m.pos + n ∧ m.pos ≤ T.put
  marked : ∀ m ∈ T.marks, ∀ a ∈ T.spans.drop m.count, m.pos ≤ a.start
  marksOrdered : T.marks.Pairwise fun m m' => m.pos ≤ m'.pos

theorem valid_empty (hn : 2 ≤ n) : (empty n : Tape β).Valid n where
  room := by
    show 0 < n - 1
    omega
  window := by
    show n - 1 < 0 + n
    omega
  ordered := List.Pairwise.nil
  written _ h := absurd h not_mem_nil
  live _ h := absurd h not_mem_nil
  inWindow _ h := absurd h not_mem_nil
  marked _ h := absurd h not_mem_nil
  marksOrdered := List.Pairwise.nil

theorem mem_drop_append {α : Type} {l : List α} {a b : α} {k : Nat} (h : b ∈ (l ++ [a]).drop k) :
    b ∈ l.drop k ∨ b = a := by
  rw [drop_append] at h
  obtain h | h := mem_append.mp h
  · exact .inl h
  · exact .inr (mem_singleton.mp (mem_of_mem_drop h))

theorem Valid.write (hT : T.Valid n) {start length : Nat} (hstart : T.put ≤ start)
    (hroom : start + length < T.limit) (data : β) : (T.write start length data).Valid n where
  room := hroom
  window := by
    have h := hT.window
    show T.limit < start + length + n
    omega
  ordered := by
    refine pairwise_append.mpr ⟨hT.ordered, pairwise_singleton _ _, fun a ha b hb => ?_⟩
    rw [mem_singleton.mp hb]
    exact (hT.written a ha).trans hstart
  written a ha := by
    obtain ha | ha := mem_append.mp ha
    · have h := hT.written a ha
      show a.start + a.length ≤ start + length
      omega
    rw [mem_singleton.mp ha]
    exact le_rfl
  live a ha := by
    obtain ha | rfl := mem_drop_append ha
    · exact hT.live a ha
    · exact hT.window.trans_le (Nat.add_le_add_right hstart n)
  inWindow m hm := by
    obtain ⟨h, h'⟩ := hT.inWindow m hm
    refine ⟨h, ?_⟩
    show m.pos ≤ start + length
    omega
  marked m hm a ha := by
    obtain ha | rfl := mem_drop_append ha
    · exact hT.marked m hm a ha
    · exact (hT.inWindow m hm).2.trans hstart
  marksOrdered := hT.marksOrdered

theorem Valid.mark (hT : T.Valid n) : T.mark.Valid n where
  room := hT.room
  window := hT.window
  ordered := hT.ordered
  written := hT.written
  live := hT.live
  inWindow m hm := by
    obtain hm | hm := mem_append.mp hm
    · exact hT.inWindow m hm
    rw [mem_singleton.mp hm]
    exact ⟨hT.window, le_rfl⟩
  marked m hm a ha := by
    obtain hm | hm := mem_append.mp hm
    · exact hT.marked m hm a ha
    -- Nothing is written behind the new mark yet.
    rw [mem_singleton.mp hm] at ha
    change a ∈ T.spans.drop T.spans.length at ha
    rw [drop_length] at ha
    exact absurd ha not_mem_nil
  marksOrdered := by
    refine pairwise_append.mpr ⟨hT.marksOrdered, pairwise_singleton _ _, fun m hm m' hm' => ?_⟩
    rw [mem_singleton.mp hm']
    exact (hT.inWindow m hm).2

theorem Valid.release (hT : T.Valid n) {k : Nat} {m : Mark} {marks : List Mark}
    (hmarks : T.marks.drop k = m :: marks) : (T.release n m marks).Valid n := by
  have hsub : (m :: marks).Sublist T.marks := hmarks ▸ drop_sublist k T.marks
  have hordered := pairwise_cons.mp (hT.marksOrdered.sublist hsub)
  have hm : m ∈ T.marks := hsub.subset mem_cons_self
  obtain ⟨hlimit, hput⟩ := hT.inWindow m hm
  have hroom := hT.room
  exact
    { room := by
        show T.put < m.pos + n - 1
        omega
      window := by
        show m.pos + n - 1 < T.put + n
        omega
      ordered := hT.ordered
      written := hT.written
      live := fun a ha => by
        have h := hT.marked m hm a ha
        show m.pos + n - 1 < a.start + n
        omega
      inWindow := fun m' hm' => by
        have h := hordered.1 m' hm'
        refine ⟨?_, (hT.inWindow m' (hsub.subset (mem_cons_of_mem m hm'))).2⟩
        show m.pos + n - 1 < m'.pos + n
        omega
      marked := fun m' hm' => hT.marked m' (hsub.subset (mem_cons_of_mem m hm'))
      marksOrdered := hordered.2 }

/-! ## On the ring -/

/-- Two different places of a window are different places of the ring. -/
theorem mod_ne_mod {p q : Nat} (hlt : p < q) (hq : q < p + n) : p % n ≠ q % n := by
  intro h
  have hdvd : n ∣ q - p := (Nat.modEq_iff_dvd' hlt.le).mp h
  have hle := Nat.le_of_dvd (Nat.sub_pos_of_lt hlt) hdvd
  omega

/-- What is not released does not overlap on the ring. -/
theorem Valid.live_disjoint (hT : T.Valid n) :
    (T.spans.drop T.released).Pairwise fun a b =>
      ∀ x < a.length, ∀ y < b.length, (a.start + x) % n ≠ (b.start + y) % n := by
  have hordered := hT.ordered.sublist (drop_sublist T.released T.spans)
  refine hordered.imp_of_mem fun {a b} ha hb hab x hx y hy => ?_
  have hlive := hT.live a ha
  have hwritten := hT.written b (mem_of_mem_drop hb)
  have hroom := hT.room
  apply mod_ne_mod
  · omega
  · omega

/-- Where the limit lies on the ring, ahead of the place that is written next. -/
theorem Valid.limit_cases (hT : T.Valid n) : T.put % n < T.limit % n ∧ T.limit + T.put % n = T.put + T.limit % n ∨
      T.limit % n < T.put % n ∧ T.limit + T.put % n = T.put + n + T.limit % n := by
  have hroom := hT.room
  have hwindow := hT.window
  have hn : 0 < n := by omega
  have hput := Nat.div_add_mod T.put n
  have hlimit := Nat.div_add_mod T.limit n
  have hle : T.put / n ≤ T.limit / n := Nat.div_le_div_right hroom.le
  have hle' : T.limit / n ≤ T.put / n + 1 := by
    rw [← Nat.add_div_right _ hn]
    exact Nat.div_le_div_right hwindow.le
  obtain hlap | hlap : T.limit / n = T.put / n ∨ T.limit / n = T.put / n + 1 := by omega
  · rw [hlap] at hlimit
    left
    omega
  rw [hlap, Nat.mul_succ] at hlimit
  right
  omega

end Tape

end Rpcsx.Lib
