import Rpcsx.Lib.Breakpoints
import Rpcsx.Rx.MemoryTable.Basic

/-!
# The bracket invariant and the meaning of a table

A table is well formed when its markers, read in key order, form a bracket sequence: an `O`
stands outside every area, an `X` or `XO` stands inside one, and the last area is closed.
What such a table means is the function `areaOf`, from an address to the area that holds it
(the address it begins at, and its payload); everything the rest of the development says about a
table is said through it. The queries of the source are `areaOf` read back.
-/

namespace Rpcsx.Rx

open Lib OrdMap List

namespace MemoryTableWithPayload

variable {T : Type}

/-! ## Bracket sequences -/

/-- `Brackets s l s'`: reading the markers `l` from a position that is inside an area iff `s`
is legal and ends at one that is inside an area iff `s'`. -/
def Brackets : Bool → List (Nat × Payload T) → Bool → Prop
  | s, [], s' => s = s'
  | s, (_, n) :: l, s' => n.isOpen = !s ∧ Brackets (!n.isClose) l s'

def WF (t : MemoryTableWithPayload T) : Prop := Brackets false t.mAreas.entries false

variable {s : Bool} {l : List (Nat × Payload T)} {l' : List (Nat × Payload T)}

theorem Brackets.append {s' s'' : Bool} (h : Brackets s l s') (h' : Brackets s' l' s'') : Brackets s (l ++ l') s'' := by
  induction l generalizing s with
  | nil => cases h; exact h'
  | cons x l ih => exact ⟨h.1, ih h.2⟩

theorem Brackets.exists_of_append {s'' : Bool} (h : Brackets s (l ++ l') s'') :
    ∃ s', Brackets s l s' ∧ Brackets s' l' s'' := by
  induction l generalizing s with
  | nil => exact ⟨s, rfl, h⟩
  | cons x l ih =>
    obtain ⟨s', h1, h2⟩ := ih h.2
    exact ⟨s', ⟨h.1, h1⟩, h2⟩

/-! ## The area in force -/

def openArea (x : Nat × Payload T) : Option (Nat × T) := x.2.get?.map fun d => (x.1, d)

/-- The area that holds `a`: where it begins, and its payload. -/
def areaOf (t : MemoryTableWithPayload T) (a : Nat) : Option (Nat × T) :=
  t.mAreas.readAt openArea none a

/-- The payload in force at `a`. -/
def valueAt (t : MemoryTableWithPayload T) (a : Nat) : Option T := (t.areaOf a).map Prod.snd

theorem get?_isSome (n : Payload T) : n.get?.isSome = !n.isClose := by
  cases n <;> rfl

theorem Brackets.isSome_inForce {s' : Bool} {c : Option (Nat × T)} (h : Brackets s l s') (hc : c.isSome = s) :
    (inForce openArea c l).isSome = s' := by
  induction l generalizing s c with
  | nil => cases h; exact hc
  | cons x l ih =>
    refine ih h.2 ?_
    rw [openArea, Option.isSome_map, get?_isSome]

/-! ## A table cut at an address

`WF.cut` is the form in which the invariant is used: at any address the markers split into those
up to the address, which leave `areaOf` in force, and those above. -/

variable {t : MemoryTableWithPayload T} {L R : List (Nat × Payload T)}

theorem WF.cut (hwf : t.WF) (a : Nat) : ∃ L R : List (Nat × Payload T), t.mAreas.entries = L ++ R ∧ (∀ x ∈ L, x.1 ≤ a) ∧
      KeysGt R a ∧ Brackets false L (t.areaOf a).isSome ∧ Brackets (t.areaOf a).isSome R false := by
  obtain ⟨L, R, h, hL, hR⟩ := exists_le_cut t.mAreas a
  have hb : Brackets false (L ++ R) false := by rw [← h]; exact hwf
  obtain ⟨s, h1, h2⟩ := hb.exists_of_append
  have hs : (t.areaOf a).isSome = s := by
    rw [areaOf, readAt_of_cut h hL hR]
    exact h1.isSome_inForce rfl
  exact ⟨L, R, h, hL, hR, hs ▸ h1, hs ▸ h2⟩

/-- An area in force was opened by the last marker read. -/
theorem exists_last_of_inForce {L : List (Nat × Payload T)} {k : Nat} {d : T}
    (h : inForce openArea none L = some (k, d)) : ∃ L' n, L = L' ++ [(k, n)] ∧ n.get? = some d := by
  rcases eq_nil_or_concat L with rfl | ⟨L', ⟨k', n⟩, rfl⟩
  · cases h
  rw [concat_eq_append, inForce_append] at h
  simp only [inForce, openArea, Option.map_eq_some_iff, Prod.mk.injEq] at h
  obtain ⟨d', hd', rfl, rfl⟩ := h
  exact ⟨L', n, by simp, hd'⟩

theorem areaOf_of_mem {k : Nat} {n : Payload T}
    (h : t.mAreas.entries = L ++ (k, n) :: R) : t.areaOf k = n.get?.map fun d => (k, d) := by
  have hcut : t.mAreas.entries = (L ++ [(k, n)]) ++ R := by simp [h]
  rw [areaOf, readAt_of_cut hcut _ (keysGt_of_mem h), inForce_append]
  · rfl
  intro x hx
  rcases mem_append.mp hx with hx' | hx'
  · exact (keysLt_of_mem h x hx').le
  · rw [mem_singleton.mp hx']

/-- Between two markers it is the one above that says whether an area is open; the one below
opened it. -/
theorem WF.areaOf_of_gap {a : Nat} (hwf : t.WF) (h : t.mAreas.entries = L ++ R) (hL : KeysLt L a) (hR : KeysGt R a) :
    match R with
    | [] => t.areaOf a = none
    | (k, n) :: _ =>
      if n.isOpen then t.areaOf a = none
      else ∃ k' d, t.areaOf a = some (k', d) ∧ t.mAreas.prev k = some k' := by
  have harea : t.areaOf a = inForce openArea none L := readAt_of_cut h (fun x hx => (hL x hx).le) hR
  have hb : Brackets false (L ++ R) false := by rw [← h]; exact hwf
  obtain ⟨s, h1, h2⟩ := hb.exists_of_append
  have hsome : (t.areaOf a).isSome = s := harea ▸ h1.isSome_inForce rfl
  cases R with
  | nil =>
    cases h2
    simpa using hsome
  | cons x R =>
    obtain ⟨k, n⟩ := x
    have hopen : n.isOpen = !s := h2.1
    cases s with
    | false => simpa [hopen] using hsome
    | true =>
      obtain ⟨⟨k', d⟩, hkd⟩ := Option.isSome_iff_exists.mp hsome
      obtain ⟨L', n', rfl, -⟩ := exists_last_of_inForce (harea ▸ hkd)
      simp [hopen, hkd, prev_of_mem h]

/-! ## The queries -/

/-- **`queryArea` is `areaOf`**: it finds the area that holds the address, and `end()` when
there is none. -/
theorem WF.queryArea_eq (hwf : t.WF) (a : Nat) : t.queryArea a = (t.areaOf a).map Prod.fst := by
  obtain ⟨L, R, hL, hR, h | ⟨n, h⟩⟩ := t.mAreas.exists_cut a
  · -- no marker at `a` itself: the first one above decides
    have hgap := hwf.areaOf_of_gap h hL hR
    cases R with
    | nil =>
      rw [queryArea, lowerBound_of_cut h hL (by simp), hgap]
      rfl
    | cons x R' =>
      obtain ⟨k, n⟩ := x
      have hak : a < k := hR (k, n) mem_cons_self
      rw [queryArea, lowerBound_of_mem h hL hak.le]
      simp only [find?_of_mem h, if_neg hak.ne', if_neg hak.le.not_gt]
      cases hopen : n.isOpen with
      | true => simp_all
      | false =>
        simp only [hopen, Bool.false_eq_true, if_false] at hgap
        obtain ⟨k', d, hkd, hprev⟩ := hgap
        simp [hprev, hkd]
  -- a marker at `a`
  rw [queryArea, lowerBound_of_mem h hL le_rfl, areaOf_of_mem h]
  simp only [find?_of_mem h, if_true]
  cases hn : n.isClose with
  | true =>
    have : n.get? = none := by cases n <;> simp_all [Payload.isClose, Payload.get?]
    simp [this]
  | false =>
    obtain ⟨d, hd⟩ : ∃ d, n.get? = some d := by
      cases n <;> simp_all [Payload.isClose, Payload.get?]
    have hb : Brackets false (L ++ (a, n) :: R) false := by rw [← h]; exact hwf
    obtain ⟨s, -, h2⟩ := hb.exists_of_append
    have h3 : Brackets true R false := by simpa [hn] using h2.2
    rw [next_of_mem h, hd]
    cases R with
    | nil => cases h3
    | cons x R' =>
      have hax : a < x.1 := hR x mem_cons_self
      simp [hax.le.not_gt]

/-- The area that `areaOf` reports is there: its opening marker holds the payload, and the next
marker ends it. -/
theorem WF.area_bounds (hwf : t.WF) {a k : Nat} {d : T} (h : t.areaOf a = some (k, d)) :
    ∃ L n k' n' R, t.mAreas.entries = L ++ (k, n) :: (k', n') :: R ∧ n.get? = some d ∧
      n'.isOpen = false ∧ k ≤ a ∧ a < k' := by
  obtain ⟨L, R, hent, hL, hR, -, h2⟩ := hwf.cut a
  rw [areaOf, readAt_of_cut hent hL hR] at h
  obtain ⟨L', n, rfl, hn⟩ := exists_last_of_inForce h
  rw [areaOf, readAt_of_cut hent hL hR, h] at h2
  cases R with
  | nil => cases h2
  | cons x R' =>
    obtain ⟨k', n'⟩ := x
    refine ⟨L', n, k', n', R', by simp [hent], hn, by simpa using h2.1, hL (k, n) (by simp), ?_⟩
    exact hR (k', n') mem_cons_self

end MemoryTableWithPayload

end Rpcsx.Rx
