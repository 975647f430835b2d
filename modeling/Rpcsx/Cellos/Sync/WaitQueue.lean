import Mathlib.Data.List.Perm.Basic
import Mathlib.Data.List.Nodup

/-!
# Queues of waiting threads

`lv2_obj::emplace`, `schedule` and `unqueue` of `sys_sync.h`. The list behind a pointer such as `sq` is linked
through `next_cpu`; a thread is put at its head and gets the next tag as the order of its arrival. Threads leave
in the order of the protocol: by arrival, or by priority and then by arrival (`before`).

Threads that are being saved (`cpu_flag::again`) are left out.
-/

namespace Rpcsx.Cellos

open List

variable {T : Type}

inductive Protocol
  | fifo
  | priority
  | priorityInherit
  deriving DecidableEq, Repr

structure Waiter (T : Type) where
  thread : T
  prio : Int
  order : Nat
  deriving DecidableEq

namespace WaitQueue

def threads (queue : List (Waiter T)) : List T := queue.map Waiter.thread

/-- `emplace`; `tag` is `g_priority_order_tag`. -/
def emplace (queue : List (Waiter T)) (thread : T) (prio : Int) (tag : Nat) : List (Waiter T) :=
  ⟨thread, prio, tag + 1⟩ :: queue

/-- `unqueue`: the queue without the thread, if it is there. -/
def unqueue [DecidableEq T] (queue : List (Waiter T)) (thread : T) : Option (List (Waiter T)) :=
  if thread ∈ threads queue then some (queue.eraseP (·.thread = thread)) else none

/-- The loop of `schedule` over the other nodes: `found` is the best one so far. -/
def select (found : Waiter T) : List (Waiter T) → Waiter T
  | [] => found
  | next :: queue =>
    if next.prio < found.prio ∨ (next.prio = found.prio ∧ next.order < found.order) then select next queue
    else select found queue

/-- `schedule`: the next thread, and the queue without it. -/
def schedule [DecidableEq T] (protocol : Protocol) (queue : List (Waiter T)) : Option (Waiter T × List (Waiter T)) :=
  match queue with
  | [] => none
  | first :: rest =>
    if protocol = .fifo then some ((first :: rest).getLast (cons_ne_nil _ _), (first :: rest).dropLast)
    else some (select first rest, (first :: rest).erase (select first rest))

def scheduleAll [DecidableEq T] (protocol : Protocol) : Nat → List (Waiter T) → Option (List (Waiter T) × List (Waiter T))
  | 0, queue => some ([], queue)
  | count + 1, queue => do
    let (w, queue) ← schedule protocol queue
    let (ws, queue) ← scheduleAll protocol count queue
    some (w :: ws, queue)

def before (protocol : Protocol) (a b : Waiter T) : Prop :=
  match protocol with
  | .fifo => a.order < b.order
  | _ => a.prio < b.prio ∨ (a.prio = b.prio ∧ a.order < b.order)

/-- The thread that arrived last is at the head, and no tag is above the last one given. -/
structure Arrived (tag : Nat) (queue : List (Waiter T)) : Prop where
  sorted : queue.Pairwise (fun a b => b.order < a.order)
  le : ∀ w ∈ queue, w.order ≤ tag

variable {tag : Nat} {queue rest : List (Waiter T)} {thread : T}

/-! ## Arriving and leaving -/

theorem Arrived.nil : Arrived tag ([] : List (Waiter T)) := ⟨.nil, nofun⟩

theorem Arrived.emplace (h : Arrived tag queue) (thread : T) (prio : Int) :
    Arrived (tag + 1) (emplace queue thread prio tag) := by
  constructor
  · refine pairwise_cons.mpr ⟨?_, h.sorted⟩
    intro w hw
    exact Nat.lt_succ_of_le (h.le w hw)
  intro w hw
  obtain rfl | hw := mem_cons.mp hw
  · exact Nat.le_refl _
  · exact Nat.le_succ_of_le (h.le w hw)

theorem Arrived.sublist (h : Arrived tag queue) (hsub : rest.Sublist queue) : Arrived tag rest :=
  ⟨h.sorted.sublist hsub, fun w hw => h.le w (hsub.subset hw)⟩

section

variable [DecidableEq T]

theorem threads_eraseP (queue : List (Waiter T)) (thread : T) :
    threads (queue.eraseP (·.thread = thread)) = (threads queue).erase thread := by
  rw [threads, threads, erase_eq_eraseP, eraseP_map]
  congr 2
  funext w
  simp [eq_comm, Bool.beq_eq_decide_eq]

theorem unqueue_eq_none : unqueue queue thread = none ↔ thread ∉ threads queue := by simp [unqueue]

theorem unqueue_eq_some (h : unqueue queue thread = some rest) :
    thread ∈ threads queue ∧ threads rest = (threads queue).erase thread ∧ rest.Sublist queue := by
  obtain ⟨hmem, heq⟩ := Option.ite_none_right_eq_some.mp h
  cases heq
  exact ⟨hmem, threads_eraseP queue thread, eraseP_sublist⟩

end

/-! ## The order of the protocol -/

theorem select_mem (found : Waiter T) (queue : List (Waiter T)) : select found queue ∈ found :: queue := by
  induction queue generalizing found with
  | nil => exact mem_cons_self
  | cons next queue ih =>
    unfold select
    split
    · exact mem_cons_of_mem found (ih next)
    obtain h | h := mem_cons.mp (ih found)
    · rw [h]
      exact mem_cons_self
    exact mem_cons_of_mem found (mem_cons_of_mem next h)

/-- No node is better than the one that is found. -/
theorem select_best (found : Waiter T) (queue : List (Waiter T)) :
    ∀ w ∈ found :: queue, ¬ (w.prio < (select found queue).prio ∨
      (w.prio = (select found queue).prio ∧ w.order < (select found queue).order)) := by
  induction queue generalizing found with
  | nil =>
    intro w hw
    obtain rfl := mem_singleton.mp hw
    show ¬ (w.prio < w.prio ∨ w.prio = w.prio ∧ w.order < w.order)
    omega
  | cons next queue ih =>
    intro w hw
    unfold select
    split
    · next hbetter =>
      obtain rfl | hw := mem_cons.mp hw
      · have := ih next next mem_cons_self
        omega
      exact ih next w hw
    · next hworse =>
      obtain rfl | hw := mem_cons.mp hw
      · exact ih w w mem_cons_self
      obtain rfl | hw := mem_cons.mp hw
      · have := ih found found mem_cons_self
        omega
      exact ih found w (mem_cons_of_mem found hw)

variable [DecidableEq T]

/-- The thread that leaves the queue comes before all others. -/
theorem schedule_spec (protocol : Protocol) (h : Arrived tag queue) (hne : queue ≠ []) :
    ∃ w rest, schedule protocol queue = some (w, rest) ∧ queue.Perm (w :: rest) ∧ rest.Sublist queue ∧
      ∀ r ∈ rest, before protocol w r := by
  cases queue with
  | nil => exact absurd rfl hne
  | cons first queue =>
    unfold schedule
    dsimp only
    split
    · next hfifo =>
      subst hfifo
      have hsplit := dropLast_append_getLast hne
      refine ⟨_, _, rfl, ?_, dropLast_sublist _, ?_⟩
      · conv => lhs; rw [← hsplit]
        exact perm_append_singleton _ _
      intro r hr
      have hsorted := h.sorted
      rw [← hsplit] at hsorted
      exact (pairwise_append.mp hsorted).2.2 r hr _ (mem_singleton.mpr rfl)
    · next hprio =>
      have hperm := perm_cons_erase (select_mem first queue)
      have hnodup : ((first :: queue).map Waiter.order).Nodup :=
        pairwise_map.mpr (h.sorted.imp fun hlt => Nat.ne_of_gt hlt)
      rw [(hperm.map _).nodup_iff] at hnodup
      refine ⟨_, _, rfl, hperm, erase_sublist, ?_⟩
      intro r hr
      have hbest := select_best first queue r (mem_of_mem_erase hr)
      have hneq : r.order ≠ (select first queue).order := by
        intro heq
        exact (nodup_cons.mp hnodup).1 (heq ▸ List.mem_map_of_mem hr)
      have hlex : (select first queue).prio < r.prio ∨
          ((select first queue).prio = r.prio ∧ (select first queue).order < r.order) := by omega
      cases protocol with
      | fifo => exact absurd rfl hprio
      | priority => exact hlex
      | priorityInherit => exact hlex

/-- `ws` are the first threads of `queue` in the order of the protocol, and `rest` are the others. -/
structure FirstOf (protocol : Protocol) (queue ws rest : List (Waiter T)) : Prop where
  perm : queue.Perm (ws ++ rest)
  sublist : rest.Sublist queue
  sorted : ws.Pairwise (before protocol)
  before_rest : ∀ w ∈ ws, ∀ r ∈ rest, before protocol w r

theorem scheduleAll_spec (protocol : Protocol) (h : Arrived tag queue) {count : Nat} (hcount : count ≤ queue.length) :
    ∃ ws rest, scheduleAll protocol count queue = some (ws, rest) ∧ ws.length = count ∧
      FirstOf protocol queue ws rest := by
  induction count generalizing queue with
  | zero => exact ⟨[], queue, rfl, rfl, .refl _, .refl _, .nil, nofun⟩
  | succ count ih =>
    have hne : queue ≠ [] := ne_nil_of_length_pos (by omega)
    obtain ⟨w, rest, hschedule, hperm, hsub, hbefore⟩ := schedule_spec protocol h hne
    have hlength := hperm.length_eq
    rw [length_cons] at hlength
    obtain ⟨ws, rest', hall, hws, hfirst⟩ := ih (h.sublist hsub) (by omega)
    refine ⟨w :: ws, rest', ?_, ?_, hperm.trans (hfirst.perm.cons w), hfirst.sublist.trans hsub, ?_, ?_⟩
    · rw [scheduleAll, hschedule]
      show (scheduleAll protocol count rest).bind _ = _
      rw [hall]
      rfl
    · rw [length_cons, hws]
    · refine pairwise_cons.mpr ⟨?_, hfirst.sorted⟩
      intro v hv
      exact hbefore v (hfirst.perm.symm.subset (mem_append_left rest' hv))
    intro v hv r hr
    obtain rfl | hv := mem_cons.mp hv
    · exact hbefore r (hfirst.sublist.subset hr)
    · exact hfirst.before_rest v hv r hr

end WaitQueue

end Rpcsx.Cellos
