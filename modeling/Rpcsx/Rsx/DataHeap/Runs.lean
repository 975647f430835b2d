import Rpcsx.Lib.Run
import Rpcsx.Lib.Tape
import Rpcsx.Rsx.DataHeap.Basic

/-!
# Runs of a ring heap

The renderer takes blocks, remembers the put position at the end of every frame, and gives what was taken
before a remembered position back when the frame is done. The heap is a ring: what has not been given
back does not overlap as long as no aligned put position jumps over the get position and no block that
starts at zero again ends at it, which `can_alloc` both lets happen.
-/

namespace Rpcsx.Rsx

open Rx Lib List Option Nat

structure Block where
  pos : Nat
  size : Nat
  alignment : Alignment

def Block.Holds (b : Block) (pos : Nat) : Prop := b.pos ≤ pos ∧ pos < b.pos + b.size

/-- A value of `get_current_put_pos_minus_one`, and how many blocks had been returned before. -/
structure Snapshot where
  value : Nat
  count : Nat

structure HeapUse where
  heap : DataHeap
  blocks : List Block
  frames : List Snapshot
  -- The blocks before this one have been given back.
  reclaimed : Nat

namespace HeapUse

inductive Op where
  | alloc (alignment : Alignment) (size : Nat)
  | tagFrameEnd
  -- The first frames may be passed over: a later position gives back theirs, too.
  | reclaim (passed : Nat)
  | reset

def init (heapSize minGuardSize : Nat) : HeapUse := ⟨.init heapSize minGuardSize, [], [], 0⟩

def step (u : HeapUse) : Op → Option HeapUse
  | .alloc alignment size =>
    (u.heap.alloc alignment size).map fun r =>
      { u with heap := r.1, blocks := u.blocks ++ [⟨r.2, size, alignment⟩] }
  | .tagFrameEnd =>
    some { u with frames := u.frames ++ [⟨u.heap.getCurrentPutPosMinusOne, u.blocks.length⟩] }
  | .reclaim passed =>
    match u.frames.drop passed with
    | [] => none
    | frame :: frames =>
      some { u with
        heap := { u.heap with getPos := frame.value }
        frames := frames
        reclaimed := frame.count }
  | .reset =>
    some { u with heap := u.heap.resetAllocationStats, frames := [], reclaimed := u.blocks.length }

/-- The positions do not overflow, the aligned put position does not jump over the get position, and a
block that starts at zero again does not end at it. -/
def Op.Ok (u : HeapUse) : Op → Prop
  | .alloc alignment size =>
    let allocSize := alignUp size alignment.val
    let alignedPutPos := alignUp u.heap.putPos alignment.val
    size + (alignment.val - 1) < 0x10000000000000000 ∧
    u.heap.putPos + (alignment.val - 1) < 0x10000000000000000 ∧
    alignedPutPos + allocSize < 0x10000000000000000 ∧
    ¬(u.heap.putPos < u.heap.getPos ∧ u.heap.getPos ≤ alignedPutPos) ∧
    ¬(u.heap.size ≤ alignedPutPos + allocSize ∧ allocSize = u.heap.getPos)
  | _ => True

instance (u : HeapUse) : (op : Op) → Decidable (op.Ok u)
  | .alloc _ _ => inferInstanceAs (Decidable (_ ∧ _ ∧ _ ∧ ¬(_ ∧ _) ∧ ¬(_ ∧ _)))
  | .tagFrameEnd | .reclaim _ | .reset => inferInstanceAs (Decidable True)

/-- The blocks lie in the heap, where they were asked for, those that have not been given back do not
overlap, and put and get are apart. -/
structure Safe (u : HeapUse) : Prop where
  inside : ∀ b ∈ u.blocks, b.pos < u.heap.size ∧ b.pos + b.size ≤ u.heap.size
  aligned : ∀ b ∈ u.blocks, b.alignment.val ∣ b.pos
  disjoint : (u.blocks.drop u.reclaimed).Pairwise fun a b => ∀ pos, ¬(a.Holds pos ∧ b.Holds pos)
  apart : u.heap.putPos ≠ u.heap.getPos
  notifies : u.heap.notify.isSome

theorem step_reclaim_eq {u u' : HeapUse} {passed : Nat} (h : u.step (.reclaim passed) = some u') :
    ∃ frame frames, u.frames.drop passed = frame :: frames ∧ u' = { u with
      heap := { u.heap with getPos := frame.value }, frames := frames, reclaimed := frame.count } := by
  simp only [step] at h
  split at h
  · exact absurd h (some_ne_none _).symm
  · next frame frames hframes => exact ⟨frame, frames, hframes, (some.inj h).symm⟩

/-! ## The heap as a tape -/

structure OnTape (T : Tape Block) (u : HeapUse) : Prop where
  valid : T.Valid u.heap.size
  putPos : u.heap.putPos = T.put % u.heap.size
  getPos : u.heap.getPos = T.limit % u.heap.size
  blocks : u.blocks = T.spans.map Span.data
  inside : ∀ a ∈ T.spans, a.data.pos = a.start % u.heap.size ∧ a.data.size ≤ a.length ∧
    a.data.pos + a.length ≤ u.heap.size
  aligned : ∀ a ∈ T.spans, a.data.alignment.val ∣ a.data.pos
  frames : u.frames = T.marks.map fun m => ⟨(m.pos + u.heap.size - 1) % u.heap.size, m.count⟩
  reclaimed : u.reclaimed = T.released
  size : u.heap.size < 0x10000000000000000

theorem mod_add {start x n : Nat} (h : start % n + x < n) : (start + x) % n = start % n + x := by
  rw [← mod_add_mod, mod_eq_of_lt h]

theorem isSome_notify {heap : DataHeap} (h : heap.putPos ≠ heap.getPos) : heap.notify.isSome := by
  unfold DataHeap.notify
  split_ifs with _ hlt hgt
  · rfl
  · rfl
  · rfl
  · exact absurd (le_antisymm (not_lt.mp hlt) (not_lt.mp hgt)) h

/-- What `alloc` does without overflow: the block lies behind the put position, with room up to the end
of the heap, or at zero. -/
theorem alloc_cases {heap heap' : DataHeap} {alignment : Alignment} {size pos : Nat}
    (hsum : alignUp heap.putPos alignment.val + alignUp size alignment.val < 0x10000000000000000)
    (h : heap.alloc alignment size = some (heap', pos)) :
    heap.canAlloc alignment size ∧ heap'.size = heap.size ∧ heap'.getPos = heap.getPos ∧
      (alignUp heap.putPos alignment.val + alignUp size alignment.val < heap.size ∧
          pos = alignUp heap.putPos alignment.val ∧
          heap'.putPos = alignUp heap.putPos alignment.val + alignUp size alignment.val ∨
        heap.size ≤ alignUp heap.putPos alignment.val + alignUp size alignment.val ∧
          pos = 0 ∧ heap'.putPos = alignUp size alignment.val) := by
  unfold DataHeap.alloc at h
  simp only [u64, mod_eq_of_lt hsum] at h
  split_ifs at h with hcan hfits
  · cases h
    exact ⟨by simpa using hcan, rfl, rfl, .inl ⟨hfits, rfl, rfl⟩⟩
  · cases h
    exact ⟨by simpa using hcan, rfl, rfl, .inr ⟨not_lt.mp hfits, rfl, rfl⟩⟩

theorem canAlloc_iff {heap : DataHeap} {alignment : Alignment} {size : Nat}
    (hsum : alignUp heap.putPos alignment.val + alignUp size alignment.val < 0x10000000000000000) :
    heap.canAlloc alignment size ↔ alignUp heap.putPos alignment.val + alignUp size alignment.val < heap.size ∧
          (alignUp heap.putPos alignment.val + alignUp size alignment.val < heap.getPos ∨
            heap.getPos < alignUp heap.putPos alignment.val) ∨
        heap.size ≤ alignUp heap.putPos alignment.val + alignUp size alignment.val ∧
          heap.getPos ≤ alignUp heap.putPos alignment.val ∧ alignUp size alignment.val ≤ heap.getPos := by
  unfold DataHeap.canAlloc
  simp only [u64, mod_eq_of_lt hsum]
  split_ifs <;> simp <;> omega

namespace OnTape

variable {T : Tape Block} {u u' : HeapUse}

section

variable (h : OnTape T u) {alignment : Alignment} {heap : DataHeap} {pos : Nat}

include h

theorem two_le_size : 2 ≤ u.heap.size := by
  have hroom := h.valid.room
  have hwindow := h.valid.window
  omega

/-- Where a position of a block is on the tape. -/
theorem exists_of_holds {a : Span Block} (ha : a ∈ T.spans)
    (hpos : a.data.Holds pos) : ∃ x < a.length, (a.start + x) % u.heap.size = pos := by
  obtain ⟨hstart, hsize, hend⟩ := h.inside a ha
  obtain ⟨hle, hlt⟩ := hpos
  refine ⟨pos - a.data.pos, by omega, ?_⟩
  rw [mod_add (by omega), ← hstart]
  omega

theorem safe : u.Safe where
  inside b hb := by
    rw [h.blocks] at hb
    obtain ⟨a, ha, rfl⟩ := List.mem_map.mp hb
    obtain ⟨hpos, hsize, hend⟩ := h.inside a ha
    have hn := h.two_le_size
    exact ⟨hpos ▸ mod_lt _ (by omega), (Nat.add_le_add_left hsize _).trans hend⟩
  aligned b hb := by
    rw [h.blocks] at hb
    obtain ⟨a, ha, rfl⟩ := List.mem_map.mp hb
    exact h.aligned a ha
  disjoint := by
    rw [h.blocks, h.reclaimed, ← map_drop, pairwise_map]
    refine h.valid.live_disjoint.imp_of_mem fun {a b} ha hb hab pos => ?_
    rintro ⟨hpos, hpos'⟩
    obtain ⟨x, hx, hax⟩ := h.exists_of_holds (mem_of_mem_drop ha) hpos
    obtain ⟨y, hy, hby⟩ := h.exists_of_holds (mem_of_mem_drop hb) hpos'
    exact hab x hx y hy (hax.trans hby.symm)
  apart := by
    rw [h.putPos, h.getPos]
    exact Tape.mod_ne_mod h.valid.room h.valid.window
  notifies := by
    apply isSome_notify
    rw [h.putPos, h.getPos]
    exact Tape.mod_ne_mod h.valid.room h.valid.window

omit h in
theorem init {heapSize minGuardSize : Nat} (hsize : 2 ≤ heapSize) (hsize' : heapSize < 2 ^ 64) :
    OnTape (.empty heapSize) (HeapUse.init heapSize minGuardSize) where
  valid := Tape.valid_empty hsize
  putPos := (zero_mod _).symm
  getPos := by
    show u64Sub heapSize 1 = (heapSize - 1) % heapSize
    rw [u64Sub_of_le (by omega), mod_eq_of_lt (by omega)]
  blocks := rfl
  inside _ h := absurd h not_mem_nil
  aligned _ h := absurd h not_mem_nil
  frames := rfl
  reclaimed := rfl
  size := hsize'

/-- The value of `get_current_put_pos_minus_one` is the place before the put position. -/
theorem getCurrentPutPosMinusOne_eq : u.heap.getCurrentPutPosMinusOne = (T.put + u.heap.size - 1) % u.heap.size := by
  have hn := h.two_le_size
  have hlt := mod_lt T.put (show 0 < u.heap.size by omega)
  unfold DataHeap.getCurrentPutPosMinusOne
  rw [h.putPos, u64Sub_of_le (by omega), show T.put + u.heap.size - 1 = T.put + (u.heap.size - 1) by omega,
    ← mod_add_mod]
  split_ifs with hpos
  · rw [show T.put % u.heap.size + (u.heap.size - 1) = T.put % u.heap.size - 1 + u.heap.size by omega,
      add_mod_right, mod_eq_of_lt (show T.put % u.heap.size - 1 < u.heap.size by omega)]
  rw [Nat.eq_zero_of_not_pos hpos, zero_add, mod_eq_of_lt (by omega)]

/-- A block that is written on the tape. -/
theorem write {pos size : Nat}
    (start length : Nat) (hsize : heap.size = u.heap.size) (hget : heap.getPos = u.heap.getPos)
    (hput : heap.putPos = (start + length) % u.heap.size) (hstart : T.put ≤ start)
    (hroom : start + length < T.limit) (hpos : pos = start % u.heap.size) (hlength : size ≤ length)
    (hend : pos + length ≤ u.heap.size) (haligned : alignment.val ∣ pos) :
    OnTape (T.write start length ⟨pos, size, alignment⟩)
      { u with heap := heap, blocks := u.blocks ++ [⟨pos, size, alignment⟩] } where
  valid := hsize ▸ h.valid.write hstart hroom _
  putPos := hsize ▸ hput
  getPos := by
    show heap.getPos = T.limit % heap.size
    rw [hsize, hget, h.getPos]
  blocks := by
    show _ = List.map _ (T.spans ++ [_])
    rw [map_append, ← h.blocks]
    rfl
  inside a ha := by
    rw [hsize]
    obtain ha | ha := mem_append.mp ha
    · exact h.inside a ha
    rw [mem_singleton.mp ha]
    exact ⟨hpos, hlength, hend⟩
  aligned a ha := by
    obtain ha | ha := mem_append.mp ha
    · exact h.aligned a ha
    rw [mem_singleton.mp ha]
    exact haligned
  frames := by
    rw [h.frames, ← hsize]
    rfl
  reclaimed := h.reclaimed
  size := hsize ▸ h.size

theorem alloc {size : Nat} (hok : Op.Ok u (.alloc alignment size))
    (halloc : u.heap.alloc alignment size = some (heap, pos)) :
    ∃ T, OnTape T { u with heap := heap, blocks := u.blocks ++ [⟨pos, size, alignment⟩] } := by
  obtain ⟨hsizeLt, hputLt, hsum, hjump, hmeet⟩ := hok
  obtain ⟨hcan, hsize, hget, hcases⟩ := alloc_cases hsum halloc
  have hcan := (canAlloc_iff hsum).mp hcan
  have hap := le_alignUp _ alignment.pos hputLt
  have hal := le_alignUp _ alignment.pos hsizeLt
  have hdvd := dvd_alignUp u.heap.putPos alignment.val
  generalize alignUp size alignment.val = al at *
  generalize alignUp u.heap.putPos alignment.val = ap at *
  have hlimit := h.valid.limit_cases
  have hput := h.putPos
  rw [← hput, ← h.getPos] at hlimit
  obtain ⟨hfits, rfl, hput'⟩ | ⟨hwraps, rfl, hput'⟩ := hcases
  · -- The put position stays in its lap.
    have hstart : (T.put + (pos - u.heap.putPos)) % u.heap.size = pos := by
      rw [mod_add (by omega)]
      omega
    refine ⟨_, h.write (T.put + (pos - u.heap.putPos)) al hsize hget ?_ (le_add_right _ _) ?_
      hstart.symm hal hfits.le hdvd⟩
    · rw [hput', mod_add (by omega), hstart]
    · omega
  -- Only a put position behind the get position may go to the next lap.
  have hlap := div_add_mod T.put u.heap.size
  have hlt := mod_lt T.put (show 0 < u.heap.size by have := h.two_le_size; omega)
  have hgetLt := mod_lt T.limit (show 0 < u.heap.size by have := h.two_le_size; omega)
  rw [← h.getPos] at hgetLt
  have hstart : u.heap.size * (T.put / u.heap.size + 1) % u.heap.size = 0 := mul_mod_right _ _
  refine ⟨_, h.write (u.heap.size * (T.put / u.heap.size + 1)) al hsize hget ?_ ?_ ?_ hstart.symm hal ?_ (dvd_zero _)⟩
  · rw [hput', mod_add (by omega), hstart, zero_add]
  · rw [mul_succ]
    omega
  · rw [mul_succ]
    omega
  · omega

theorem tagFrameEnd : OnTape T.mark
    { u with frames := u.frames ++ [⟨u.heap.getCurrentPutPosMinusOne, u.blocks.length⟩] } :=
  { h with
    valid := h.valid.mark
    frames := by
      show u.frames ++ [_] = List.map _ (T.marks ++ [_])
      rw [map_append, ← h.frames, h.getCurrentPutPosMinusOne_eq, h.blocks, length_map]
      rfl }

theorem reclaim {passed : Nat} {frame : Snapshot} {frames : List Snapshot}
    (hframes : u.frames.drop passed = frame :: frames) : ∃ T, OnTape T { u with
      heap := { u.heap with getPos := frame.value }, frames := frames, reclaimed := frame.count } := by
  rw [h.frames, ← map_drop] at hframes
  obtain ⟨m, marks, hmarks, rfl, rfl⟩ := map_eq_cons_iff.mp hframes
  exact ⟨T.release u.heap.size m marks, { h with
      valid := h.valid.release hmarks
      getPos := rfl
      frames := rfl
      reclaimed := rfl }⟩

theorem reset : ∃ T, OnTape T { u with
    heap := u.heap.resetAllocationStats, frames := [], reclaimed := u.blocks.length } := by
  -- The same as taking a position and reclaiming it at once.
  have hframes : (u.frames ++ [(⟨u.heap.getCurrentPutPosMinusOne, u.blocks.length⟩ : Snapshot)]).drop
      u.frames.length = [⟨u.heap.getCurrentPutPosMinusOne, u.blocks.length⟩] := drop_left
  obtain ⟨T', h'⟩ := h.tagFrameEnd.reclaim hframes
  exact ⟨T', { h' with valid := h'.valid }⟩

theorem step {op : Op} (hok : op.Ok u) (hstep : u.step op = some u') : ∃ T, OnTape T u' := by
  cases op with
  | alloc alignment size =>
    obtain ⟨⟨heap, pos⟩, halloc, rfl⟩ := map_eq_some_iff.mp hstep
    exact h.alloc hok halloc
  | tagFrameEnd =>
    cases hstep
    exact ⟨_, h.tagFrameEnd⟩
  | reclaim passed =>
    obtain ⟨frame, frames, hframes, rfl⟩ := step_reclaim_eq hstep
    exact h.reclaim hframes
  | reset =>
    cases hstep
    exact h.reset

end

end OnTape

/-! ## A heap of no bytes -/

structure Void (u : HeapUse) : Prop where
  size : u.heap.size = 0
  putPos : u.heap.putPos = 0
  getPos : u.heap.getPos = 0xffffffffffffffff
  blocks : u.blocks = []
  frames : ∀ frame ∈ u.frames, frame.value = 0xffffffffffffffff

namespace Void

variable {u u' : HeapUse}

theorem safe (h : Void u) : u.Safe where
  inside b hb := absurd (h.blocks ▸ hb) not_mem_nil
  aligned b hb := absurd (h.blocks ▸ hb) not_mem_nil
  disjoint := by
    rw [h.blocks, drop_nil]
    exact List.Pairwise.nil
  apart := by
    rw [h.putPos, h.getPos]
    decide
  notifies := by
    apply isSome_notify
    rw [h.putPos, h.getPos]
    decide

theorem canAlloc_eq_false (h : Void u) (alignment : Alignment) (size : Nat) :
    u.heap.canAlloc alignment size = false := by
  have hle : alignUp 0 alignment.val = 0 := by
    obtain ⟨a, k, hk, rfl⟩ := alignment
    have hpow : 2 ^ k < 2 ^ 31 := Nat.pow_lt_pow_right (by decide) hk
    have hpos := Nat.two_pow_pos k
    show u64 (0 + (2 ^ k - 1)) - u64 (0 + (2 ^ k - 1)) % 2 ^ k = 0
    rw [u64, mod_eq_of_lt (by omega), mod_eq_of_lt (by omega), Nat.sub_self]
  simp [DataHeap.canAlloc, h.size, h.putPos, h.getPos, hle]

theorem getCurrentPutPosMinusOne_eq (h : Void u) : u.heap.getCurrentPutPosMinusOne = 0xffffffffffffffff := by
  unfold DataHeap.getCurrentPutPosMinusOne
  rw [h.putPos, h.size]
  rfl

theorem step (h : Void u) {op : Op} (hstep : u.step op = some u') : Void u' := by
  cases op with
  | alloc alignment size =>
    obtain ⟨r, halloc, -⟩ := map_eq_some_iff.mp hstep
    rw [DataHeap.alloc, h.canAlloc_eq_false] at halloc
    exact absurd halloc (some_ne_none r).symm
  | tagFrameEnd =>
    cases hstep
    refine { h with frames := fun frame hframe => ?_ }
    obtain hframe | hframe := mem_append.mp hframe
    · exact h.frames frame hframe
    rw [mem_singleton.mp hframe]
    exact h.getCurrentPutPosMinusOne_eq
  | reclaim passed =>
    obtain ⟨frame, frames, hframes, rfl⟩ := step_reclaim_eq hstep
    have hsub : ∀ f ∈ frame :: frames, f ∈ u.frames := fun f hf =>
      mem_of_mem_drop (hframes ▸ hf)
    exact { h with
      getPos := h.frames frame (hsub frame mem_cons_self)
      frames := fun f hf => h.frames f (hsub f (mem_cons_of_mem _ hf)) }
  | reset =>
    cases hstep
    exact { h with
      getPos := h.getCurrentPutPosMinusOne_eq
      frames := fun f hf => absurd hf not_mem_nil }

end Void

/-- In every run of allocations that keep to the condition, the blocks that have not been given back do
not overlap, and `notify` does not throw. -/
theorem live_blocks_disjoint {heapSize minGuardSize : Nat} (hsize : heapSize < 0x10000000000000000)
    (hone : heapSize ≠ 1) {ops : List Op} {u : HeapUse}
    (hrun : Run HeapUse.step (fun u op => op.Ok u) (HeapUse.init heapSize minGuardSize) ops u) : u.Safe := by
  by_cases hzero : heapSize = 0
  · subst hzero
    have hvoid := hrun.invariant (P := Void)
      ⟨rfl, rfl, rfl, rfl, fun _ h => absurd h not_mem_nil⟩ fun _ _ _ h _ hstep => h.step hstep
    exact hvoid.safe
  obtain ⟨T, hT⟩ := hrun.invariant (P := fun u => ∃ T, OnTape T u)
    ⟨_, OnTape.init (by omega) hsize⟩ fun _ _ _ ⟨_, h⟩ hok hstep => h.step hok hstep
  exact hT.safe

def power (k : Fin 31) : Alignment := ⟨2 ^ k.val, k, k.isLt, rfl⟩

/-- A block of a frame that is done, and one of the next frame. -/
def twoFrames : List Op :=
  [.alloc (power 4) 512, .tagFrameEnd, .alloc (power 4) 400, .reclaim 0]

/-- Two frames in a heap of 1024 bytes; the second starts at zero again. -/
theorem live_blocks_disjoint_two_frames : ∃ u : HeapUse, (u.heap.putPos = 480 ∧ u.heap.getPos = 511) ∧ u.Safe := by
  obtain ⟨u, hu, hpos⟩ : ∃ u, Run HeapUse.step (fun u op => op.Ok u) (HeapUse.init 1024 0)
      (twoFrames ++ [.alloc (power 4) 480]) u ∧ u.heap.putPos = 480 ∧ u.heap.getPos = 511 :=
    Run.exists_of_eval (by decide +kernel)
  exact ⟨u, hpos, live_blocks_disjoint (by decide) (by decide) hu⟩

/-- The aligned put position jumps over the get position, onto a block that is in use; and a block that
starts at zero again ends at the get position, so that `notify` throws. -/
theorem live_blocks_overlap : (∃ ops u, Run HeapUse.step (fun _ _ => True) (HeapUse.init 1024 0) ops u ∧
      ¬(u.blocks.drop u.reclaimed).Pairwise fun a b => ∀ pos, ¬(a.Holds pos ∧ b.Holds pos)) ∧
    ∃ ops u, Run HeapUse.step (fun _ _ => True) (HeapUse.init 1024 0) ops u ∧ u.heap.notify = none := by
  constructor
  · obtain ⟨u, hu, hblocks⟩ : ∃ u, Run HeapUse.step (fun _ _ => True) (HeapUse.init 1024 0)
        (twoFrames ++ [.alloc (power 4) 480, .alloc (power 8) 64]) u ∧
        (u.blocks.drop u.reclaimed).map (fun b => (b.pos, b.size)) = [(512, 400), (0, 480), (512, 64)] :=
      Run.exists_of_eval (by decide +kernel)
    refine ⟨_, u, hu, fun h => ?_⟩
    have hpairs := pairwise_map (f := fun b : Block => (b.pos, b.size)) (R := fun a b =>
      ∀ pos, ¬((a.1 ≤ pos ∧ pos < a.1 + a.2) ∧ b.1 ≤ pos ∧ pos < b.1 + b.2)).mpr h
    rw [hblocks] at hpairs
    exact (pairwise_cons.mp hpairs).1 (512, 64) (by decide) 512 (by decide)
  exact ⟨twoFrames ++ [.alloc (power 0) 511], Run.exists_of_eval (by decide +kernel)⟩

end HeapUse

end Rpcsx.Rsx
