import Rpcsx.Cellos.Sync.WaitQueue
import Rpcsx.Lib.Monitor
import Rpcsx.Lib.Run

/-!
# Semaphores

`sys_semaphore_wait`, `trywait` and `post` of `sys_semaphore.cpp`. The counter `val` is changed by fast paths
without the mutex and by slow paths with it; a negative `val` counts the threads that sleep. A step of a thread
is one access to `val`, or what it does to the queue in a critical section. The mutex is taken with the first
step of a critical section and given back with the last one.

A thread that has been taken out of the queue is in `woken` until its call returns. The scheduler, savestates and
semaphores that are destroyed are left out.
-/

namespace Rpcsx.Cellos

open Lib WaitQueue Function List Option

def toS32 (x : Int) : Int := (x + 0x80000000) % 0x100000000 - 0x80000000

def toU32 (x : Int) : Int := x % 0x100000000

theorem toS32_of_mem {x : Int} (hlo : -0x80000000 ≤ x) (hhi : x < 0x80000000) : toS32 x = x := by
  unfold toS32
  omega

/-- What `sys_semaphore_create` accepts. -/
structure SemaConfig where
  protocol : Protocol
  initial : Int
  max : Int
  protocol_ne : protocol ≠ .priorityInherit
  initial_nonneg : 0 ≤ initial
  initial_le : initial ≤ max
  max_lt : max < 0x80000000

namespace Sema

variable {T : Type}

inductive Result
  | ok
  | timedOut
  | busy
  | inval
  deriving DecidableEq, Repr

inductive Call
  | wait (prio : Int)
  | trywait
  | post (count : Int)

def Call.Typed : Call → Prop
  | .post count => count < 0x80000000
  | _ => True

/-- Where a thread is; `waitCas` and `postCas` have read `val`. -/
inductive Pc
  | idle
  | waitCas (val prio : Int)
  | waitLock (prio : Int)
  | sleeping
  | postCas (val count : Int)
  | postLock (count : Int)
  | locked
  deriving DecidableEq

/-- What is left to do in the critical section that is open: to put the thread in the queue, to take the
decrement back, or to wake threads after `val` has been increased. -/
inductive Crit
  | enqueue (prio : Int)
  | undo
  | wake (val count : Int)
  deriving DecidableEq

structure State (T : Type) where
  val : Int
  queue : List (Waiter T) := []
  tag : Nat := 0
  lock : Option (T × Crit) := none
  pc : T → Pc := fun _ => .idle
  result : T → Result := fun _ => .ok
  woken : List T := []
  /-- The permits of all successful posts. -/
  posted : Int := 0
  /-- The calls of `wait` and `trywait` that have returned `CELL_OK`. -/
  returned : Nat := 0
  /-- An `ensure` has failed. -/
  failed : Bool := false

inductive Action
  | call (c : Call)
  | next
  | timeout

def toAwake (val count : Int) : Nat := (min (-min val 0) count).toNat

variable [DecidableEq T] (cfg : SemaConfig)

def State.goto (s : State T) (t : T) (pc : Pc) : State T := { s with pc := update s.pc t pc }

def State.ret (s : State T) (t : T) (r : Result) : State T :=
  { s with pc := update s.pc t .idle, result := update s.result t r }

def State.retOk (s : State T) (t : T) : State T := { s.ret t .ok with returned := s.returned + 1 }

def start : State T := { val := cfg.initial }

def begin (s : State T) (t : T) : Call → State T
  | .wait prio => s.goto t (if 0 < s.val then .waitCas s.val prio else .waitLock prio)
  | .trywait => if 0 < s.val then { s with val := s.val - 1 }.retOk t else s.ret t .busy
  | .post count =>
    if 0 ≤ s.val ∧ 0 < count ∧ count ≤ cfg.max - s.val then s.goto t (.postCas s.val count)
    else if count ≤ 0 then s.ret t .inval
    else s.goto t (.postLock count)

def finish (s : State T) (t : T) : Crit → State T
  | .enqueue prio =>
    { s with queue := emplace s.queue t prio s.tag, tag := s.tag + 1, lock := none }.goto t .sleeping
  | .undo =>
    { s with
      val := if s.val < 0 then s.val + 1 else s.val
      failed := s.failed || decide (¬ s.val < 0)
      lock := none }.ret t .timedOut
  | .wake val count =>
    match scheduleAll cfg.protocol (toAwake val count) s.queue with
    | none => { s with failed := true }
    | some (ws, queue) => { s with queue := queue, woken := s.woken ++ threads ws, lock := none }.ret t .ok

def step (s : State T) : T × Action → Option (State T)
  | (t, .call c) => if s.pc t = .idle then some (begin cfg s t c) else none
  | (t, .timeout) =>
    if s.pc t = .sleeping ∧ s.lock = none then
      match unqueue s.queue t with
      | none => some ({ s with woken := s.woken.erase t }.retOk t)
      | some queue => some ({ s with queue := queue, lock := some (t, .undo) }.goto t .locked)
    else none
  | (t, .next) =>
    match s.pc t with
    | .idle => none
    | .waitCas val prio =>
      some (if s.val = val then { s with val := val - 1 }.retOk t else s.goto t (.waitLock prio))
    | .waitLock prio =>
      if s.lock = none then
        some (if s.val ≤ 0 then
            { s with val := toS32 (s.val - 1), lock := some (t, .enqueue prio) }.goto t .locked
          else { s with val := s.val - 1 }.retOk t)
      else none
    | .sleeping =>
      if t ∈ s.woken then some ({ s with woken := s.woken.erase t }.retOk t) else none
    | .postCas val count =>
      some (if s.val = val then { s with val := val + count, posted := s.posted + count }.ret t .ok
        else s.goto t (.postLock count))
    | .postLock count =>
      if s.lock = none then
        some (if toU32 count ≤ toU32 (cfg.max - s.val) then
            { s with
              val := toS32 (s.val + count)
              posted := s.posted + count
              lock := some (t, .wake s.val count) }.goto t .locked
          else s.ret t .busy)
      else none
    | .locked => s.lock.bind fun (t', c) => if t' = t then some (finish cfg s t c) else none

def State.waking (s : State T) : Nat :=
  match s.lock with
  | some (_, .wake val count) => toAwake val count
  | _ => 0

/-- The calls of `wait` and `trywait` that got a permit: those that have returned, and those of the threads that
have been woken or are going to be. -/
def State.successful (s : State T) : Nat := s.returned + s.woken.length + s.waking

/-! ## The invariant -/

def Pc.phase : Pc → Phase
  | .sleeping => .asleep
  | .locked => .inside
  | _ => .running

def Pc.Reads : Pc → Prop
  | .waitCas val _ => 0 < val
  | .postCas val count => 0 ≤ val ∧ 0 < count ∧ count ≤ cfg.max - val
  | .postLock count => 0 < count ∧ count < 0x80000000
  | _ => True

/-- How a negative `val` and the length of the queue are related in the critical section that is open. -/
def Counts : Option Crit → Int → Nat → Prop
  | none, val, length => max (-val) 0 = length
  | some (.enqueue _), val, length => -val = length + 1
  | some .undo, val, length => -val = length + 1
  | some (.wake val₀ count), val, length =>
    max (-val₀) 0 = length ∧ 0 < count ∧ max (-val) 0 = max (-(val₀ + count)) 0

structure Inv (s : State T) : Prop where
  monitor : Monitor (threads s.queue) s.woken (s.lock.map Prod.fst) (Pc.phase ∘ s.pc)
  reads : ∀ t, (s.pc t).Reads cfg
  arrived : Arrived s.tag s.queue
  counts : Counts (s.lock.map Prod.snd) s.val s.queue.length
  conserved : cfg.initial + s.posted = s.successful + max s.val 0
  le_max : s.val ≤ cfg.max
  ok : s.failed = false

variable {cfg} {s : State T} {t : T}

/-- Fast paths change `val` where it is not negative. -/
theorem Counts.fast {c : Option Crit} {val val' : Int} {length : Nat} (h : Counts c val length) (hval : 0 ≤ val)
    (hval' : 0 ≤ val') : Counts c val' length := by
  match c with
  | none =>
    simp only [Counts] at h ⊢
    omega
  | some (.enqueue _) =>
    simp only [Counts] at h
    omega
  | some .undo =>
    simp only [Counts] at h
    omega
  | some (.wake val₀ count) =>
    simp only [Counts] at h ⊢
    omega

omit [DecidableEq T] in
theorem Inv.start : Inv cfg (start cfg : State T) := by
  have hnonneg := cfg.initial_nonneg
  refine ⟨.start, fun _ => trivial, .nil, ?_, ?_, cfg.initial_le, rfl⟩
  · show max (-cfg.initial) 0 = 0
    omega
  show cfg.initial + 0 = (0 + 0 + 0 : Nat) + max cfg.initial 0
  omega

theorem reads_update (h : ∀ t, (s.pc t).Reads cfg) (pc : Pc) (hpc : pc.Reads cfg) (t : T) :
    ∀ u, (update s.pc t pc u).Reads cfg := (forall_update_iff s.pc fun _ pc => pc.Reads cfg).mpr ⟨hpc, fun u _ => h u⟩

section

variable (h : Inv cfg s) (ht : (s.pc t).phase = .running)

include h ht

/-- A thread that runs goes on. -/
theorem Inv.goto (pc : Pc) (hphase : pc.phase = .running) (hpc : pc.Reads cfg) : Inv cfg (s.goto t pc) := by
  refine ⟨?_, reads_update h.reads pc hpc t, h.arrived, h.counts, h.conserved, h.le_max, h.ok⟩
  show Monitor _ _ _ (Pc.phase ∘ update s.pc t pc)
  rw [comp_update, hphase]
  exact h.monitor.move ht

theorem Inv.ret (r : Result) : Inv cfg (s.ret t r) :=
  have hgoto := h.goto ht .idle rfl trivial
  ⟨hgoto.monitor, hgoto.reads, h.arrived, h.counts, h.conserved, h.le_max, h.ok⟩

/-- A permit is taken without sleeping. -/
theorem Inv.take (hval : 0 < s.val) : Inv cfg ({ s with val := s.val - 1 }.retOk t) := by
  have hret := h.ret ht .ok
  have hconserved := h.conserved
  have hle := h.le_max
  refine ⟨hret.monitor, hret.reads, h.arrived, h.counts.fast hval.le (show 0 ≤ s.val - 1 by omega), ?_, ?_, h.ok⟩
  · show cfg.initial + s.posted = (s.returned + 1 + s.woken.length + s.waking : Nat) + max (s.val - 1) 0
    unfold State.successful at hconserved
    omega
  show s.val - 1 ≤ cfg.max
  omega

/-- Permits are posted without waking. -/
theorem Inv.give {count : Int} (hval : 0 ≤ s.val) (hcount : 0 < count) (hmax : count ≤ cfg.max - s.val) :
    Inv cfg ({ s with val := s.val + count, posted := s.posted + count }.ret t .ok) := by
  have hret := h.ret ht .ok
  have hconserved := h.conserved
  refine ⟨hret.monitor, hret.reads, h.arrived, h.counts.fast hval (show 0 ≤ s.val + count by omega), ?_, ?_, h.ok⟩
  · show cfg.initial + (s.posted + count) = s.successful + max (s.val + count) 0
    omega
  show s.val + count ≤ cfg.max
  omega

end

theorem Inv.begin (h : Inv cfg s) (ht : s.pc t = .idle) {c : Call} (hc : c.Typed) : Inv cfg (begin cfg s t c) := by
  have hrun : (s.pc t).phase = .running := by rw [ht]; rfl
  cases c with
  | wait prio =>
    refine h.goto hrun _ ?_ ?_
    · split <;> rfl
    split
    · next hval => exact hval
    · trivial
  | trywait =>
    show Inv cfg (if 0 < s.val then _ else _)
    split
    · next hval => exact h.take hrun hval
    · exact h.ret hrun _
  | post count =>
    show Inv cfg (if 0 ≤ s.val ∧ 0 < count ∧ count ≤ cfg.max - s.val then _ else _)
    split
    · next hfast => exact h.goto hrun _ rfl hfast
    split
    · exact h.ret hrun _
    · next hpos => exact h.goto hrun _ rfl ⟨Int.not_le.mp hpos, hc⟩

/-! ## Critical sections -/

omit [DecidableEq T] in
theorem waking_of_none (h : s.lock = none) : s.waking = 0 := by rw [State.waking, h]

omit [DecidableEq T] in
/-- What holds while no critical section is open. -/
theorem Inv.unlocked (h : Inv cfg s) (hlock : s.lock = none) :
    Monitor (threads s.queue) s.woken none (Pc.phase ∘ s.pc) ∧ max (-s.val) 0 = s.queue.length := by
  have hmonitor := h.monitor
  have hcounts := h.counts
  rw [hlock] at hmonitor hcounts
  exact ⟨hmonitor, hcounts⟩

variable {c : Crit}

omit [DecidableEq T] in
/-- What holds in a critical section of the thread `t`. -/
theorem Inv.of_lock (h : Inv cfg s) (hlock : s.lock = some (t, c)) :
    Monitor (threads s.queue) s.woken (some t) (Pc.phase ∘ s.pc) ∧ Counts (some c) s.val s.queue.length := by
  have hmonitor := h.monitor
  have hcounts := h.counts
  rw [hlock] at hmonitor hcounts
  exact ⟨hmonitor, hcounts⟩

variable {queue : List (Waiter T)} {woken : List T}

/-- The state as a sleeper begins or a post is about to wake: the mutex is taken. -/
theorem enter_monitor (h : Monitor (threads queue) woken none (Pc.phase ∘ s.pc)) (ht : (s.pc t).phase = .running) :
    Monitor (threads queue) woken ((some (t, c)).map Prod.fst) (Pc.phase ∘ update s.pc t .locked) := by
  rw [comp_update]
  exact h.enter ht

theorem leave_monitor (h : Monitor (threads queue) woken (some t) (Pc.phase ∘ s.pc)) :
    Monitor (threads queue) woken none (Pc.phase ∘ update s.pc t .idle) := by
  rw [comp_update]
  exact h.leave

section

variable [Fintype T] (hcard : Fintype.card T ≤ 0x80000000)

include hcard

omit [DecidableEq T] in
/-- Sleepers are counted in `s32`. -/
theorem Inv.length_lt (h : Inv cfg s) (ht : (s.pc t).phase = .running) : (s.queue.length : Int) < 0x80000000 := by
  have hlt := h.monitor.length_lt_card (t := t) (fun hasleep => by cases ht.symm.trans hasleep)
  rw [threads, length_map] at hlt
  omega

/-- `val` is decremented, and the thread is going to sleep. -/
theorem Inv.beginSleep (h : Inv cfg s) (ht : (s.pc t).phase = .running) (hlock : s.lock = none) (hval : s.val ≤ 0)
    (prio : Int) : Inv cfg ({ s with val := toS32 (s.val - 1), lock := some (t, .enqueue prio) }.goto t .locked) := by
  obtain ⟨hmonitor, hcounts⟩ := h.unlocked hlock
  have hlength := h.length_lt hcard ht
  have hconserved := h.conserved
  have hle := h.le_max
  have hs32 : toS32 (s.val - 1) = s.val - 1 := toS32_of_mem (by omega) (by omega)
  refine ⟨enter_monitor hmonitor ht, reads_update h.reads .locked trivial t, h.arrived, ?_, ?_, ?_, h.ok⟩
  · show -toS32 (s.val - 1) = s.queue.length + 1
    omega
  · show cfg.initial + s.posted = (s.returned + s.woken.length + 0 : Nat) + max (toS32 (s.val - 1)) 0
    rw [State.successful, waking_of_none hlock] at hconserved
    omega
  show toS32 (s.val - 1) ≤ cfg.max
  omega

/-- `val` is increased by a post that may wake threads; the comparison of unsigned numbers is that of the
numbers. -/
theorem Inv.beginWake (h : Inv cfg s) (ht : (s.pc t).phase = .running) (hlock : s.lock = none) {count : Int}
    (hcount : 0 < count ∧ count < 0x80000000) (hmax : toU32 count ≤ toU32 (cfg.max - s.val)) : Inv cfg ({ s with
      val := toS32 (s.val + count)
      posted := s.posted + count
      lock := some (t, .wake s.val count) }.goto t .locked) := by
  obtain ⟨hmonitor, hcounts⟩ := h.unlocked hlock
  have hlength := h.length_lt hcard ht
  have hconserved := h.conserved
  have hle := h.le_max
  have hlt := cfg.max_lt
  have hfits : count ≤ cfg.max - s.val := by
    unfold toU32 at hmax
    omega
  have hsum : toS32 (s.val + count) = s.val + count := toS32_of_mem (by omega) (by omega)
  refine ⟨enter_monitor hmonitor ht, reads_update h.reads .locked trivial t, h.arrived, ?_, ?_, ?_, h.ok⟩
  · refine ⟨hcounts, hcount.1, ?_⟩
    show max (-toS32 (s.val + count)) 0 = _
    rw [hsum]
  · show cfg.initial + (s.posted + count) =
      (s.returned + s.woken.length + toAwake s.val count : Nat) + max (toS32 (s.val + count)) 0
    rw [State.successful, waking_of_none hlock] at hconserved
    unfold toAwake
    omega
  show toS32 (s.val + count) ≤ cfg.max
  omega

end

/-- A thread notices that it has been woken. -/
theorem Inv.notice (h : Inv cfg s) (ht : t ∈ s.woken) : Inv cfg ({ s with woken := s.woken.erase t }.retOk t) := by
  have hconserved := h.conserved
  have hlength := length_erase_add_one ht
  refine ⟨?_, reads_update h.reads .idle trivial t, h.arrived, h.counts, ?_, h.le_max, h.ok⟩
  · show Monitor _ (s.woken.erase t) _ (Pc.phase ∘ update s.pc t .idle)
    rw [comp_update]
    exact h.monitor.notice ht
  show cfg.initial + s.posted = (s.returned + 1 + (s.woken.erase t).length + s.waking : Nat) + max s.val 0
  unfold State.successful at hconserved
  omega

/-- A thread takes itself out of the queue. -/
theorem Inv.beginUndo (h : Inv cfg s) (hlock : s.lock = none) (hqueue : unqueue s.queue t = some queue) :
    Inv cfg ({ s with queue := queue, lock := some (t, .undo) }.goto t .locked) := by
  obtain ⟨hmonitor, hcounts⟩ := h.unlocked hlock
  obtain ⟨hmem, hthreads, hsub⟩ := unqueue_eq_some hqueue
  have hconserved := h.conserved
  have hlength : queue.length + 1 = s.queue.length := by
    have hone := length_erase_add_one hmem
    rwa [← hthreads, threads, threads, length_map, length_map] at hone
  refine ⟨?_, reads_update h.reads .locked trivial t, h.arrived.sublist hsub, ?_, ?_, h.le_max, h.ok⟩
  · show Monitor (threads queue) _ (some t) (Pc.phase ∘ update s.pc t .locked)
    rw [comp_update, hthreads]
    exact hmonitor.unqueue hmem
  · show -s.val = queue.length + 1
    omega
  rwa [State.successful, waking_of_none hlock] at hconserved

/-- What a post wakes. -/
theorem Inv.wakes (h : Inv cfg s) {val count : Int} (hlock : s.lock = some (t, .wake val count)) :
    ∃ ws rest, scheduleAll cfg.protocol (toAwake val count) s.queue = some (ws, rest) ∧
      ws.length = toAwake val count ∧ (toAwake val count : Int) = min (s.queue.length : Int) count ∧
      FirstOf cfg.protocol s.queue ws rest := by
  obtain ⟨-, hlength, hcount, -⟩ := h.of_lock hlock
  have hmin : (toAwake val count : Int) = min (s.queue.length : Int) count := by
    unfold toAwake
    omega
  have hle : toAwake val count ≤ s.queue.length := by omega
  obtain ⟨ws, rest, hall, hws, hfirst⟩ := scheduleAll_spec cfg.protocol h.arrived hle
  exact ⟨ws, rest, hall, hws, hmin, hfirst⟩

theorem Inv.finish (h : Inv cfg s) (hlock : s.lock = some (t, c)) : Inv cfg (finish cfg s t c) := by
  obtain ⟨hmonitor, hcounts⟩ := h.of_lock hlock
  have hconserved := h.conserved
  have hle := h.le_max
  cases c with
  | enqueue prio =>
    refine ⟨?_, reads_update h.reads .sleeping trivial t, h.arrived.emplace t prio, ?_, ?_, hle, h.ok⟩
    · show Monitor (t :: threads s.queue) _ none (Pc.phase ∘ update s.pc t .sleeping)
      rw [comp_update]
      exact hmonitor.sleep
    · show max (-s.val) 0 = (s.queue.length + 1 : Nat)
      simp only [Counts] at hcounts
      omega
    have hwaking : s.waking = 0 := by rw [State.waking, hlock]
    rwa [State.successful, hwaking] at hconserved
  | undo =>
    simp only [Counts] at hcounts
    have hneg : s.val < 0 := by omega
    refine ⟨leave_monitor hmonitor, reads_update h.reads .idle trivial t, h.arrived, ?_, ?_, ?_, ?_⟩
    · show max (-(if s.val < 0 then s.val + 1 else s.val)) 0 = s.queue.length
      rw [if_pos hneg]
      omega
    · show cfg.initial + s.posted =
        (s.returned + s.woken.length + 0 : Nat) + max (if s.val < 0 then s.val + 1 else s.val) 0
      have hwaking : s.waking = 0 := by rw [State.waking, hlock]
      rw [State.successful, hwaking] at hconserved
      rw [if_pos hneg]
      omega
    · show (if s.val < 0 then s.val + 1 else s.val) ≤ cfg.max
      have := cfg.initial_nonneg
      have := cfg.initial_le
      rw [if_pos hneg]
      omega
    show (s.failed || decide (¬ s.val < 0)) = false
    rw [h.ok, decide_eq_false (not_not_intro hneg)]
    rfl
  | wake val count =>
    obtain ⟨ws, rest, hall, hws, hmin, hfirst⟩ := h.wakes hlock
    have hlength := hfirst.perm.length_eq
    rw [length_append, hws] at hlength
    unfold Sema.finish
    dsimp only
    rw [hall]
    refine ⟨leave_monitor (hmonitor.wake ?_), reads_update h.reads .idle trivial t, h.arrived.sublist hfirst.sublist,
      ?_, ?_, hle, h.ok⟩
    · show (s.queue.map Waiter.thread).Perm (ws.map Waiter.thread ++ rest.map Waiter.thread)
      rw [← map_append]
      exact hfirst.perm.map _
    · show max (-s.val) 0 = rest.length
      simp only [Counts] at hcounts
      omega
    show cfg.initial + s.posted = (s.returned + (s.woken ++ threads ws).length + 0 : Nat) + max s.val 0
    have hwaking : s.waking = toAwake val count := by rw [State.waking, hlock]
    rw [length_append, threads, length_map, hws]
    rw [State.successful, hwaking] at hconserved
    omega

/-! ## Runs -/

def Typed : State T → T × Action → Prop
  | _, (_, .call c) => c.Typed
  | _, _ => True

instance (s : State T) : ∀ l, Decidable (Typed s l)
  | (_, .call (.post count)) => inferInstanceAs (Decidable (count < 0x80000000))
  | (_, .call (.wait _)) => .isTrue trivial
  | (_, .call .trywait) => .isTrue trivial
  | (_, .next) => .isTrue trivial
  | (_, .timeout) => .isTrue trivial

theorem Inv.step [Fintype T] (hcard : Fintype.card T ≤ 0x80000000) (h : Inv cfg s) {l : T × Action} (hl : Typed s l)
    {s' : State T} (hstep : step cfg s l = some s') : Inv cfg s' := by
  obtain ⟨t, _ | _ | _⟩ := l
  · -- A call
    obtain ⟨hidle, heq⟩ := ite_none_right_eq_some.mp hstep
    cases heq
    exact h.begin hidle hl
  · -- The next access
    have hreads := h.reads t
    unfold Sema.step at hstep
    dsimp only at hstep
    cases hpc : s.pc t with
    | idle =>
      rw [hpc] at hstep
      cases hstep
    | waitCas val prio =>
      rw [hpc] at hstep hreads
      cases hstep
      split
      · next heq =>
        subst heq
        exact h.take (by rw [hpc]; rfl) hreads
      exact h.goto (by rw [hpc]; rfl) _ rfl trivial
    | waitLock prio =>
      rw [hpc] at hstep
      obtain ⟨hlock, heq⟩ := ite_none_right_eq_some.mp hstep
      cases heq
      split
      · next hval => exact h.beginSleep hcard (by rw [hpc]; rfl) hlock hval prio
      · next hval => exact h.take (by rw [hpc]; rfl) (Int.not_le.mp hval)
    | sleeping =>
      rw [hpc] at hstep
      obtain ⟨hwoken, heq⟩ := ite_none_right_eq_some.mp hstep
      cases heq
      exact h.notice hwoken
    | postCas val count =>
      rw [hpc] at hstep hreads
      obtain ⟨hval, hcount, hmax⟩ := hreads
      cases hstep
      split
      · next heq =>
        subst heq
        exact h.give (by rw [hpc]; rfl) hval hcount hmax
      have := cfg.max_lt
      exact h.goto (by rw [hpc]; rfl) _ rfl ⟨hcount, by omega⟩
    | postLock count =>
      rw [hpc] at hstep hreads
      obtain ⟨hlock, heq⟩ := ite_none_right_eq_some.mp hstep
      cases heq
      split
      · next hmax => exact h.beginWake hcard (by rw [hpc]; rfl) hlock hreads hmax
      · exact h.ret (by rw [hpc]; rfl) _
    | locked =>
      rw [hpc] at hstep
      obtain ⟨⟨t', c⟩, hlock, heq⟩ := bind_eq_some_iff.mp hstep
      obtain ⟨rfl, heq⟩ := ite_none_right_eq_some.mp heq
      cases heq
      exact h.finish hlock
  -- A timeout
  obtain ⟨⟨hsleeping, hlock⟩, heq⟩ := ite_none_right_eq_some.mp hstep
  cases hqueue : unqueue s.queue t with
  | some queue =>
    rw [hqueue] at heq
    cases heq
    exact h.beginUndo hlock hqueue
  | none =>
    rw [hqueue] at heq
    cases heq
    have hasleep : (Pc.phase ∘ s.pc) t = .asleep := by
      show (s.pc t).phase = _
      rw [hsleeping]
      rfl
    have hmem := mem_append.mp ((h.monitor.asleep t).mp hasleep)
    exact h.notice (hmem.resolve_left (unqueue_eq_none.mp hqueue))

/-- In every run no permit is lost or made up, `val` does not exceed the maximum, a negative `val` counts the
threads in the queue, no `ensure` fails, and a post wakes the threads that come first. -/
theorem permits_conserved [Fintype T] (hcard : Fintype.card T ≤ 0x80000000) {ls : List (T × Action)}
    (hrun : Run (step cfg) Typed (start cfg) ls s) :
    cfg.initial + s.posted = s.successful + max s.val 0 ∧ s.val ≤ cfg.max ∧ s.failed = false ∧
      (s.lock = none → max (-s.val) 0 = s.queue.length) ∧
      ∀ t val count, s.lock = some (t, .wake val count) → ∃ ws s', step cfg s (t, .next) = some s' ∧
        s'.woken = s.woken ++ threads ws ∧ (ws.length : Int) = min (s.queue.length : Int) count ∧
        FirstOf cfg.protocol s.queue ws s'.queue := by
  have h : Inv cfg s := hrun.invariant .start fun _ _ _ h hl => h.step hcard hl
  refine ⟨h.conserved, h.le_max, h.ok, fun hlock => (h.unlocked hlock).2, ?_⟩
  intro t val count hlock
  obtain ⟨ws, rest, hall, hws, hmin, hfirst⟩ := h.wakes hlock
  have hpc : s.pc t = .locked := by
    have hinside : (s.pc t).phase = .inside := ((h.of_lock hlock).1.inside t).mpr rfl
    cases hpc : s.pc t with
    | locked => rfl
    | _ =>
      rw [hpc] at hinside
      cases hinside
  refine ⟨ws, { s with queue := rest, woken := s.woken ++ threads ws, lock := none }.ret t .ok, ?_, rfl, ?_, hfirst⟩
  · unfold step
    dsimp only
    rw [hpc, hlock]
    dsimp only [bind_some]
    rw [if_pos rfl, finish, hall]
  rw [hws, hmin]

/-- A thread sleeps, and another one is about to wake it. -/
theorem permits_conserved_oneSleeper : ∃ (cfg : SemaConfig) (s : State Bool), Run (step cfg) Typed (start cfg)
        [(true, .call (.wait 5)), (true, .next), (true, .next), (false, .call (.post 1)), (false, .next)] s ∧
      cfg.initial + s.posted = s.successful + max s.val 0 := by
  let cfg : SemaConfig := ⟨.fifo, 0, 1, by decide, by decide, by decide, by decide⟩
  exact ⟨cfg, (Run.exists_of_eval (P := fun _ => True) (by decide +kernel)).imp fun s h =>
    ⟨h.1, (permits_conserved (by decide) h.1).1⟩⟩

end Sema

end Rpcsx.Cellos
