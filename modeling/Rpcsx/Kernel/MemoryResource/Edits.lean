import Rpcsx.Kernel.MemoryResource.Basic
import Rpcsx.Rx.MemoryTable.Areas

/-!
# Resource operations as edits of the table

Whatever `map` and `merge` decide, they change the table in two ways only: they map a range, or they
assign the payload of an area. Everything that both of these keep is kept by the operations, in
particular the bracket invariant.
-/

namespace Rpcsx.Kernel

open Rx AllocationInfo Relation Option

namespace AllocableResource

variable {A : Type} [Inhabited A] [DecidableEq A] {t t' : Allocations A}

inductive Edit : Allocations A → Allocations A → Prop
  | map {t t' : Allocations A} {range : AddressRange} {info : A} {merge : Bool} {it : Nat}
      (h : t.map range info merge false = some (t', it)) : Edit t t'
  | setAt {t t' : Allocations A} {it : Nat} {info : A} (h : t.setAt it info = some t') : Edit t t'

theorem Edit.wf (h : Edit t t') (hwf : t.WF) : t'.WF := by
  cases h with
  | map h => exact hwf.of_map h
  | setAt h => exact hwf.of_setAt h

theorem wf_of_edits (h : ReflTransGen Edit t t') (hwf : t.WF) : t'.WF := by
  induction h with
  | refl => exact hwf
  | tail _ hedit ih => exact hedit.wf ih

variable [AllocationInfo A] {t t' : Allocations A}

theorem notifyTruncation_edits {node : Nat} {left right : AddressRange}
    (h : notifyTruncation t node left right = some t') : ReflTransGen Edit t t' := by
  simp only [notifyTruncation, bind_eq_bind, bind_eq_some_iff] at h
  obtain ⟨info, -, range, -, h⟩ := h
  split at h
  · cases h; exact .refl
  split at h
  · cases h; exact .refl
  split at h
  · simp only [map_eq_some_iff] at h
    obtain ⟨x, hmap, rfl⟩ := h
    exact .single (.map hmap)
  · cases h; exact .refl

theorem notifyMiddle_edits {fuel endIt : Nat} {it : Iter}
    (h : notifyMiddle t fuel it endIt = some t') : ReflTransGen Edit t t' := by
  induction fuel generalizing t it with
  | zero => cases h
  | succ fuel ih =>
    cases it with
    | none => cases h
    | some beginIt =>
      rw [notifyMiddle] at h
      split at h
      · cases h; exact .refl
      obtain ⟨t1, h1, h2⟩ := bind_eq_some_iff.mp h
      exact (notifyTruncation_edits h1).trans (ih h2)

variable {it : Nat}

theorem notifyAll_edits {endIt : Nat} {fixedRange : AddressRange} (h : notifyAll t it endIt fixedRange = some t') :
    ReflTransGen Edit t t' := by
  unfold notifyAll at h
  split at h
  · cases h; exact .refl
  split at h
  · obtain ⟨range, -, h⟩ := bind_eq_some_iff.mp h
    exact notifyTruncation_edits h
  obtain ⟨t1, h1, h⟩ := bind_eq_some_iff.mp h
  obtain ⟨t2, h2, h⟩ := bind_eq_some_iff.mp h
  obtain ⟨_, -, h⟩ := bind_eq_some_iff.mp h
  exact (notifyTruncation_edits h1).trans ((notifyMiddle_edits h2).trans (notifyTruncation_edits h))

theorem joinAt_edits {left right it' : Nat} (h : joinAt t left right it = some (t', it')) : ReflTransGen Edit t t' := by
  simp only [joinAt, bind_eq_bind, bind_eq_some_iff] at h
  obtain ⟨_, -, _, -, _, -, _, -, h⟩ := h
  split at h
  · exact .single (.map h)
  · cases h; exact .refl

theorem merge_edits {it' : Nat} (h : merge t it = some (t', it')) : ReflTransGen Edit t t' := by
  obtain ⟨⟨t1, it1⟩, h1, h2⟩ := bind_eq_some_iff.mp h
  have hprev : ReflTransGen Edit t t1 := by
    unfold joinPrev at h1
    split at h1
    · cases h1; exact .refl
    · exact joinAt_edits h1
  refine hprev.trans ?_
  simp only [joinNext] at h2
  split at h2
  · cases h2; exact .refl
  · exact joinAt_edits h2

variable {info : A} {flags : AllocationFlags} {res : AllocationResult}

theorem place_edits {range : AddressRange} (h : place t it range info flags = some (t', res)) :
    ReflTransGen Edit t t' := by
  obtain ⟨⟨t1, it1⟩, h1, h⟩ := bind_eq_some_iff.mp h
  have hassign : ReflTransGen Edit t t1 := by
    obtain ⟨range', -, h1⟩ := bind_eq_some_iff.mp h1
    split at h1
    · obtain ⟨t2, h2, heq⟩ := map_eq_some_iff.mp h1
      cases heq
      exact .single (.setAt h2)
    exact .single (.map h1)
  refine hassign.trans ?_
  dsimp only at h
  split at h
  · cases h; exact .refl
  obtain ⟨⟨t2, it2⟩, h2, heq⟩ := map_eq_some_iff.mp h
  cases heq
  exact merge_edits h2

variable {hint size alignment : Nat}

theorem mapFixed_edits (h : mapFixed t it hint size info flags alignment = some (t', res)) :
    ReflTransGen Edit t t' := by
  unfold mapFixed at h
  split at h
  · cases h; exact .refl
  obtain ⟨area, -, h⟩ := bind_eq_some_iff.mp h
  obtain ⟨range, -, h⟩ := bind_eq_some_iff.mp h
  split at h
  · cases h; exact .refl
  obtain ⟨t1, h1, h⟩ := bind_eq_some_iff.mp h
  have hnotify : ReflTransGen Edit t t1 := by
    unfold notify at h1
    split at h1
    · cases h1; exact .refl
    · exact notifyAll_edits h1
  refine hnotify.trans ?_
  split at h
  · cases h; exact .refl
  · exact place_edits h

theorem mapSearch_edits (h : mapSearch t it hint size info flags alignment = some (t', res)) :
    ReflTransGen Edit t t' := by
  obtain ⟨found, -, h⟩ := bind_eq_some_iff.mp h
  split at h
  · cases h; exact .refl
  obtain ⟨range, -, h⟩ := bind_eq_some_iff.mp h
  split at h
  · cases h; exact .refl
  · exact place_edits h

/-- `map` is a sequence of edits. -/
theorem map_edits (h : map t hint size info flags alignment = some (t', res)) : ReflTransGen Edit t t' := by
  unfold map at h
  dsimp only at h
  split at h
  · cases h; exact .refl
  split at h
  · exact mapFixed_edits h
  · exact mapSearch_edits h

/-! ## Reachable tables -/

/-- What the managers built on a resource do to its table: the operations of the resource, direct
calls of `allocations.map`, and updates of a record in place. -/
inductive Step : Allocations A → Allocations A → Prop
  | create {t t' : Allocations A} {range : AddressRange} (h : create t range = some t') : Step t t'
  | map {t t' : Allocations A} {hint size alignment : Nat} {info : A} {flags : AllocationFlags}
      {res : AllocationResult} (h : map t hint size info flags alignment = some (t', res)) :
      Step t t'
  | merge {t t' : Allocations A} {it it' : Nat} (h : merge t it = some (t', it')) : Step t t'
  | edit {t t' : Allocations A} (h : Edit t t') : Step t t'

def Reachable (t : Allocations A) : Prop := ReflTransGen Step MemoryTableWithPayload.empty t

theorem Step.edits (h : Step t t') : ReflTransGen Edit t t' := by
  cases h with
  | create h =>
    obtain ⟨x, hmap, rfl⟩ := map_eq_some_iff.mp h
    exact .single (.map hmap)
  | map h => exact map_edits h
  | merge h => exact merge_edits h
  | edit h => exact .single h

theorem Reachable.wf (h : Reachable t) : t.WF := by
  induction h with
  | refl => rfl
  | tail _ hstep ih => exact wf_of_edits hstep.edits ih

end AllocableResource

end Rpcsx.Kernel
