import Mathlib.Data.Fintype.Card
import Mathlib.Logic.Function.Basic

/-!
# Threads around a mutex

Threads run, are inside of a critical section or sleep. A thread that sleeps is in the queue, or it has been
woken and has not noticed it yet. `Monitor` says that the lists and the holder of the mutex agree with what the
threads do; there is one lemma for each thing that may happen.
-/

namespace Rpcsx.Lib

open Function List Option

inductive Phase
  | running
  | asleep
  | inside
  deriving DecidableEq

structure Monitor {T : Type} (queue woken : List T) (holder : Option T) (phase : T → Phase) : Prop where
  inside : ∀ t, phase t = .inside ↔ holder = some t
  asleep : ∀ t, phase t = .asleep ↔ t ∈ queue ++ woken
  nodup : (queue ++ woken).Nodup

namespace Monitor

variable {T : Type} {queue woken : List T} {holder : Option T} {phase : T → Phase} {t : T}

theorem start : Monitor ([] : List T) [] none fun _ => .running :=
  ⟨fun _ => ⟨nofun, nofun⟩, fun _ => ⟨nofun, nofun⟩, .nil⟩

section

variable (h : Monitor queue woken holder phase)

include h

theorem not_mem (ht : phase t ≠ .asleep) : t ∉ queue ++ woken :=
  fun hmem => ht ((h.asleep t).mpr hmem)

/-- Not all threads sleep. -/
theorem length_lt_card [Fintype T] (ht : phase t ≠ .asleep) : queue.length + woken.length < Fintype.card T := by
  have hnodup : (t :: (queue ++ woken)).Nodup := nodup_cons.mpr ⟨h.not_mem ht, h.nodup⟩
  have hcard := hnodup.length_le_card
  rw [length_cons, length_append] at hcard
  omega

variable [DecidableEq T]

/-- One thread changes its phase. -/
theorem update {queue' woken' : List T} {holder' : Option T} (t : T) (p : Phase)
    (hself : (p = .inside ↔ holder' = some t) ∧ (p = .asleep ↔ t ∈ queue' ++ woken'))
    (hother : ∀ u, u ≠ t → (holder' = some u ↔ holder = some u) ∧ (u ∈ queue' ++ woken' ↔ u ∈ queue ++ woken))
    (hnodup : (queue' ++ woken').Nodup) : Monitor queue' woken' holder' (Function.update phase t p) := by
  refine ⟨?_, ?_, hnodup⟩ <;>
  · intro u
    obtain rfl | hne := eq_or_ne u t
    · rw [update_self]
      first | exact hself.1 | exact hself.2
    rw [update_of_ne hne]
    first | exact (h.inside u).trans (hother u hne).1.symm | exact (h.asleep u).trans (hother u hne).2.symm

/-- A thread goes on. -/
theorem move (ht : phase t = .running) : Monitor queue woken holder (Function.update phase t .running) := by
  have hsame : Function.update phase t .running = phase := by rw [← ht, update_eq_self]
  rwa [hsame]

omit h in
/-- A thread takes the mutex. -/
theorem enter (h : Monitor queue woken none phase) (ht : phase t = .running) :
    Monitor queue woken (some t) (Function.update phase t .inside) := by
  refine h.update t .inside ⟨⟨fun _ => rfl, fun _ => rfl⟩, ⟨nofun, ?_⟩⟩ ?_ h.nodup
  · intro hmem
    exact absurd hmem (h.not_mem (ht ▸ nofun))
  intro u hne
  exact ⟨⟨fun heq => absurd (some.inj heq).symm hne, nofun⟩, Iff.rfl⟩

omit h in
/-- A thread gives the mutex back. -/
theorem leave (h : Monitor queue woken (some t) phase) :
    Monitor queue woken none (Function.update phase t .running) := by
  have ht := (h.inside t).mpr rfl
  refine h.update t .running ⟨⟨nofun, nofun⟩, ⟨nofun, ?_⟩⟩ ?_ h.nodup
  · intro hmem
    exact absurd hmem (h.not_mem (ht ▸ nofun))
  intro u hne
  exact ⟨⟨nofun, fun heq => absurd (some.inj heq).symm hne⟩, Iff.rfl⟩

omit h in
/-- A thread puts itself in the queue and gives the mutex back. -/
theorem sleep (h : Monitor queue woken (some t) phase) :
    Monitor (t :: queue) woken none (Function.update phase t .asleep) := by
  have ht := (h.inside t).mpr rfl
  refine h.update t .asleep ⟨⟨nofun, nofun⟩, ⟨fun _ => mem_cons_self, fun _ => rfl⟩⟩ ?_
    (nodup_cons.mpr ⟨h.not_mem (ht ▸ nofun), h.nodup⟩)
  intro u hne
  refine ⟨⟨nofun, fun heq => absurd (some.inj heq).symm hne⟩, ?_⟩
  rw [cons_append, mem_cons]
  exact or_iff_right hne

/-- A thread that has been woken goes on. -/
theorem notice (ht : t ∈ woken) : Monitor queue (woken.erase t) holder (Function.update phase t .running) := by
  have hdisjoint := nodup_append.mp h.nodup
  have hout : t ∉ queue ++ woken.erase t := by
    intro hmem
    obtain hmem | hmem := mem_append.mp hmem
    · exact hdisjoint.2.2 t hmem t ht rfl
    · exact hdisjoint.2.1.not_mem_erase hmem
  have hholder : holder ≠ some t := by
    intro heq
    have hinside := (h.inside t).mpr heq
    rw [(h.asleep t).mpr (mem_append_right queue ht)] at hinside
    cases hinside
  refine h.update t .running ⟨⟨nofun, fun heq => absurd heq hholder⟩, ⟨nofun, fun hmem => absurd hmem hout⟩⟩ ?_
    (h.nodup.sublist (erase_sublist.append_left queue))
  intro u hne
  refine ⟨Iff.rfl, ?_⟩
  rw [mem_append, mem_append, mem_erase_of_ne hne]

omit h in
/-- A thread takes the mutex and takes itself out of the queue. -/
theorem unqueue (h : Monitor queue woken none phase) (ht : t ∈ queue) :
    Monitor (queue.erase t) woken (some t) (Function.update phase t .inside) := by
  have hdisjoint := nodup_append.mp h.nodup
  have hout : t ∉ queue.erase t ++ woken := by
    intro hmem
    obtain hmem | hmem := mem_append.mp hmem
    · exact hdisjoint.1.not_mem_erase hmem
    · exact hdisjoint.2.2 t ht t hmem rfl
  refine h.update t .inside ⟨⟨fun _ => rfl, fun _ => rfl⟩, ⟨nofun, fun hmem => absurd hmem hout⟩⟩ ?_
    (h.nodup.sublist (erase_sublist.append_right woken))
  intro u hne
  refine ⟨⟨fun heq => absurd (some.inj heq).symm hne, nofun⟩, ?_⟩
  rw [mem_append, mem_append, mem_erase_of_ne hne]

omit [DecidableEq T] in
/-- Threads are taken out of the queue to be woken. -/
theorem wake {ws rest : List T} (hperm : queue.Perm (ws ++ rest)) : Monitor rest (woken ++ ws) holder phase := by
  have hall : (queue ++ woken).Perm (rest ++ (woken ++ ws)) := by
    refine (hperm.append_right woken).trans ?_
    rw [append_assoc]
    exact perm_append_comm.trans (append_assoc rest woken ws ▸ List.Perm.refl _)
  refine ⟨h.inside, ?_, hall.nodup_iff.mp h.nodup⟩
  intro t
  exact (h.asleep t).trans hall.mem_iff

end

end Monitor

end Rpcsx.Lib
