import Rpcsx.Lib.Run
import Rpcsx.Lib.Tally
import Rpcsx.Rx.SharedMutex.Calls

/-!
# Runs of a `shared_mutex`

Threads that call the mutex in any order, one atomic operation a step, each releasing only what it
holds. A thread may hold the mutex for reading several times.
-/

namespace Rpcsx.Rx.SharedMutex

open Lib Counts Function

/-- Where a thread is: in no call, with what the last one returned, or before an operation of one. -/
inductive Pc
  | idle (result : Bool)
  | lock (pc : LockPc)
  | tryLock
  | unlock (pc : UnlockPc)
  | lockShared (pc : SharedPc)
  | tryLockShared (pc : TryPc)
  | unlockShared (pc : UnlockPc)
  | lockUpgrade (pc : UpgradePc)
  | tryLockUpgrade (pc : TryPc)
  | lockDowngrade
  | died
  deriving DecidableEq

def Flow.next : Flow Pc → Pc
  | .goto pc => pc
  | .done => .idle true
  | .fail => .idle false
  | .die => .died

namespace Pc

def turn (value : Nat) (interrupted : Bool) : Pc → Option (Turn Pc)
  | .idle _ | .died => none
  | .lock pc => some ((SharedMutex.lock value interrupted pc).map .lock)
  | .tryLock => some ((SharedMutex.tryLock value).map .lock)
  | .unlock pc => some ((SharedMutex.unlock value pc).map .unlock)
  | .lockShared pc => some ((SharedMutex.lockShared value interrupted pc).map .lockShared)
  | .tryLockShared pc => some ((SharedMutex.tryLockShared value pc).map .tryLockShared)
  | .unlockShared pc => some ((SharedMutex.unlockShared value pc).map .unlockShared)
  | .lockUpgrade pc => some ((SharedMutex.lockUpgrade value interrupted pc).map .lockUpgrade)
  | .tryLockUpgrade pc => some ((SharedMutex.tryLockUpgrade value pc).map .tryLockUpgrade)
  | .lockDowngrade => some (SharedMutex.lockDowngrade value)

def queued : Pc → Nat
  | .lock pc => pc.queued
  | .lockShared pc => pc.queued
  | .lockUpgrade pc => pc.queued
  | _ => 0

def signalling : Pc → Nat
  | .unlock pc | .unlockShared pc => pc.signalling
  | _ => 0

def Sound (h : Hold) : Pc → Prop
  | .idle _ | .tryLock => True
  | .lock pc => pc.Sound h
  | .unlock pc => pc.Sound Hold.writes h
  | .lockShared pc => pc.Sound h
  | .tryLockShared pc => pc.Low
  | .unlockShared pc => pc.Sound Hold.reads h
  | .lockUpgrade pc => pc.Sound h
  | .tryLockUpgrade pc => pc.Only h
  | .lockDowngrade => h.writes ≠ 0
  | .died => False

end Pc

/-- The mutex and its threads; the holds and the number of pending signals are ghosts. -/
structure State (T : Type) where
  value : Nat
  hold : T → Hold
  pc : T → Pc
  signals : Nat

/-- What happens next: a call begins, or a thread takes a step of the one it is in. -/
inductive Label (T : Type)
  | lock (t : T)
  | tryLock (t : T)
  | unlock (t : T)
  | lockShared (t : T)
  | tryLockShared (t : T)
  | unlockShared (t : T)
  | lockUpgrade (t : T)
  | tryLockUpgrade (t : T)
  | lockDowngrade (t : T)
  | run (t : T) (interrupted : Bool)

namespace State

variable {T : Type} [DecidableEq T]

def init : State T := ⟨0, fun _ => ⟨0, 0⟩, fun _ => .idle true, 0⟩

def start (s : State T) (t : T) (allowed : Bool) (pc : Pc) : Option (State T) :=
  match s.pc t with
  | .idle _ => if allowed then some { s with pc := update s.pc t pc } else none
  | _ => none

def apply (s : State T) (t : T) (turn : Turn Pc) : State T where
  value := turn.value
  hold := update s.hold t (turn.effect.apply (s.hold t))
  pc := update s.pc t turn.flow.next
  signals := turn.signal.apply s.signals

def step (s : State T) : Label T → Option (State T)
  | .lock t => s.start t true (.lock .fast)
  | .tryLock t => s.start t true .tryLock
  | .unlock t => s.start t ((s.hold t).writes ≠ 0) (.unlock .drop)
  | .lockShared t => s.start t true (.lockShared (.fast .load))
  | .tryLockShared t => s.start t true (.tryLockShared .load)
  | .unlockShared t => s.start t ((s.hold t).reads ≠ 0) (.unlockShared .drop)
  | .lockUpgrade t => s.start t ((s.hold t).reads ≠ 0) (.lockUpgrade (.tries 0 .load))
  | .tryLockUpgrade t => s.start t ((s.hold t).reads ≠ 0) (.tryLockUpgrade .load)
  | .lockDowngrade t => s.start t ((s.hold t).writes ≠ 0) .lockDowngrade
  | .run t interrupted => ((s.pc t).turn s.value interrupted).map (s.apply t)

/-! ## The invariant -/

variable [Fintype T] {s s' : State T} {t : T} {turn : Turn Pc}

def counts (s : State T) : Counts :=
  ⟨tally Hold.reads s.hold, tally Hold.writes s.hold, tally Pc.queued s.pc, tally Pc.signalling s.pc,
    s.signals⟩

def others (s : State T) (t : T) : Counts :=
  ⟨tallyBut Hold.reads s.hold t, tallyBut Hold.writes s.hold t, tallyBut Pc.queued s.pc t,
    tallyBut Pc.signalling s.pc t, s.signals⟩

structure Inv (s : State T) : Prop where
  valid : s.counts.Valid
  word : s.value = s.counts.word
  manned : s.counts.Manned
  sound : ∀ t, (s.pc t).Sound (s.hold t)

theorem counts_eq (s : State T) (t : T) :
    s.counts = (s.others t).join (s.hold t) (s.pc t).queued (s.pc t).signalling := by
  rw [counts, tally_eq _ _ t, tally_eq Hold.writes _ t, tally_eq Pc.queued _ t, tally_eq Pc.signalling _ t]
  rfl

theorem counts_apply (s : State T) (t : T) (turn : Turn Pc) :
    (s.apply t turn).counts = turn.after Pc.queued Pc.signalling (s.others t) (s.hold t) := by
  have hweight : ∀ w : Pc → Nat, w (.idle true) = 0 → w (.idle false) = 0 → w .died = 0 →
      w turn.flow.next = turn.flow.weight w := by
    intro w h1 h2 h3
    cases turn.flow with
    | goto pc => rfl
    | done => exact h1
    | fail => exact h2
    | die => exact h3
  rw [counts, apply, tally_update, tally_update, tally_update, tally_update,
    hweight Pc.queued rfl rfl rfl, hweight Pc.signalling rfl rfl rfl]
  rfl

/-- A step that keeps the rule keeps the invariant. -/
theorem Inv.apply (h : Inv s)
    (hk : Kept Pc.queued Pc.signalling Pc.Sound (s.others t) (s.hold t) (s.pc t) turn) : Inv (s.apply t turn) := by
  have hcounts := counts_apply s t turn
  refine ⟨?_, ?_, ?_, fun t' => ?_⟩
  · rw [hcounts]
    exact hk.valid
  · rw [hcounts]
    exact hk.word
  · rw [hcounts]
    refine hk.manned ?_
    rw [← counts_eq]
    exact h.manned
  by_cases hself : t' = t
  · subst hself
    have hleads := hk.leads
    simp only [State.apply, update_self]
    cases hflow : turn.flow with
    | goto pc =>
      rw [hflow] at hleads
      exact hleads
    | done | fail => trivial
    | die =>
      rw [hflow] at hleads
      exact hleads
  simp only [State.apply, update_of_ne hself]
  exact h.sound t'

/-- There is room for a writer of every thread. -/
theorem Inv.room (h : Inv s) (hcard : Fintype.card T < 0x4000) (t : T) : Room (s.others t) s.value := by
  have hqueued : s.counts.queued < 0x4000 := by
    refine Nat.lt_of_le_of_lt (tally_le_card (fun pc => ?_) s.pc) hcard
    cases pc with
    | lock pc => cases pc <;> simp [Pc.queued, LockPc.queued]
    | lockShared pc => cases pc <;> simp [Pc.queued, SharedPc.queued]
    | lockUpgrade pc => cases pc <;> simp [Pc.queued, UpgradePc.queued]
    | _ => exact Nat.zero_le _
  rw [h.word]
  refine .of_queued h.valid h.manned hqueued ?_
  rw [s.counts_eq t]
  exact Nat.le_add_right _ _

/-- Every operation keeps the rule. -/
theorem Inv.kept {interrupted : Bool} (h : Inv s) (hcard : Fintype.card T < 0x4000)
    (hturn : (s.pc t).turn s.value interrupted = some turn) :
    Kept Pc.queued Pc.signalling Pc.Sound (s.others t) (s.hold t) (s.pc t) turn := by
  have hroom := h.room hcard t
  have hv : s.counts.Shows s.value := ⟨h.valid, h.word⟩
  have hmanned := h.manned
  have hsound := h.sound t
  rw [s.counts_eq t] at hv hmanned
  generalize s.pc t = pc at hturn hv hmanned hsound ⊢
  cases pc with
  | idle result | died => cases hturn
  | lock pc =>
    cases hturn
    exact (lock_kept hv (fun _ => hroom) hsound).map (fun _ => rfl) (fun _ => rfl) fun _ _ h => h
  | tryLock =>
    cases hturn
    have hk : Kept Pc.queued Pc.signalling Pc.Sound (s.others t) (s.hold t) (.lock .fast)
        ((SharedMutex.tryLock s.value).map .lock) :=
      (tryLock_kept hv hroom).map (fun _ => rfl) (fun _ => rfl) fun _ _ h => h
    exact ⟨hk.valid, hk.word, hk.leads, hk.manned⟩
  | unlock pc =>
    cases hturn
    exact (unlock_kept hv hsound).map (fun _ => rfl) (fun _ => rfl) fun _ _ h => h
  | lockShared pc =>
    cases hturn
    exact (lockShared_kept hv hmanned (fun _ => hroom) hsound).map (fun _ => rfl) (fun _ => rfl) fun _ _ h => h
  | tryLockShared pc =>
    cases hturn
    exact (tryLockShared_kept hv hmanned hsound).map (fun _ => rfl) (fun _ => rfl) fun _ _ h => h
  | unlockShared pc =>
    cases hturn
    exact (unlockShared_kept hv hsound).map (fun _ => rfl) (fun _ => rfl) fun _ _ h => h
  | lockUpgrade pc =>
    cases hturn
    exact (lockUpgrade_kept hv (fun _ => hroom) hsound).map (fun _ => rfl) (fun _ => rfl) fun _ _ h => h
  | tryLockUpgrade pc =>
    cases hturn
    exact (tryLockUpgrade_kept hv hroom hsound).map (fun _ => rfl) (fun _ => rfl) fun _ _ h => h
  | lockDowngrade =>
    obtain rfl := Option.some.inj hturn
    exact .downgrade hv hsound

theorem Inv.start {allowed : Bool} {pc : Pc} (h : Inv s) (hstep : s.start t allowed pc = some s')
    (hq : pc.queued = 0) (hs : pc.signalling = 0) (hsound : allowed = true → pc.Sound (s.hold t)) : Inv s' := by
  rw [State.start] at hstep
  split at hstep
  · next result hpc =>
    split at hstep
    · next hallowed =>
      cases hstep
      have hcounts : State.counts { s with pc := update s.pc t pc } = s.counts := by
        rw [counts, counts, tally_update, tally_update, hq, hs, tally_eq Pc.queued s.pc t,
          tally_eq Pc.signalling s.pc t, hpc]
        rfl
      have hsounds := (forall_update_iff s.pc fun t' pc => pc.Sound (s.hold t')).mpr
        ⟨hsound hallowed, fun t' _ => h.sound t'⟩
      exact ⟨hcounts ▸ h.valid, hcounts ▸ h.word, hcounts ▸ h.manned, hsounds⟩
    · cases hstep
  · cases hstep

theorem step_inv {l : Label T} (hcard : Fintype.card T < 0x4000) (h : Inv s) (hstep : s.step l = some s') : Inv s' := by
  cases l with
  | lock t | tryLock t | lockShared t | tryLockShared t => exact h.start hstep rfl rfl fun _ => trivial
  | unlock t | unlockShared t | lockUpgrade t | tryLockUpgrade t | lockDowngrade t =>
    exact h.start hstep rfl rfl of_decide_eq_true
  | run t interrupted =>
    obtain ⟨turn, hturn, rfl⟩ := Option.map_eq_some_iff.mp hstep
    exact h.apply (h.kept hcard hturn)

omit [DecidableEq T] in
theorem init_inv : Inv (init : State T) := by
  have hzero : ∀ {A : Type} (weight : A → Nat) (a : A), weight a = 0 → tally weight (fun _ : T => a) = 0 := by
    intro A weight a h0
    rw [tally, Finset.sum_eq_zero fun _ _ => h0]
  have hcounts : (init : State T).counts = ⟨0, 0, 0, 0, 0⟩ := by
    rw [counts, init, hzero Hold.reads _ rfl, hzero Hold.writes _ rfl, hzero Pc.queued _ rfl, hzero Pc.signalling _ rfl]
  refine ⟨?_, ?_, ?_, fun t => trivial⟩
  · rw [hcounts]
    exact ⟨by decide, nofun, by decide, by decide⟩
  · rw [hcounts]
    rfl
  rw [hcounts]
  exact nofun

/-- **`shared_mutex` excludes**: in every state of every run of fewer than 2^14 threads, a thread that
has the mutex for writing has it alone; the word counts the writers that hold or wait, the readers and
the pending signals; at most one signal is pending; and no thread has died. -/
theorem shared_mutex_excludes (hcard : Fintype.card T < 0x4000) (ls : List (Label T)) (s : State T)
    (h : Run step (fun _ _ => True) init ls s) : (∀ t, (s.hold t).writes ≠ 0 →
      s.hold t = ⟨0, 1⟩ ∧ ∀ t', t' ≠ t → s.hold t' = ⟨0, 0⟩) ∧
    s.value = c_one * (tally Hold.writes s.hold + tally Pc.queued s.pc) + tally Hold.reads s.hold +
      c_sig * s.signals ∧ s.signals ≤ 1 ∧ ∀ t, s.pc t ≠ .died := by
  have hinv : Inv s := h.invariant init_inv fun _ _ _ hs _ hstep => step_inv hcard hs hstep
  have htoken : tally Hold.writes s.hold + tally Pc.signalling s.pc + s.signals ≤ 1 := hinv.valid.token
  refine ⟨fun t hwrite => ?_, hinv.word, by omega, fun t hdied => ?_⟩
  · have hreaders : tally Hold.reads s.hold = 0 := by
      by_contra hne
      have hnone := hinv.valid.readers hne
      have hle := le_tally Hold.writes s.hold t
      simp only [counts] at hnone
      omega
    have hreads : ∀ t', (s.hold t').reads = 0 := fun t' => by
      have hle := le_tally Hold.reads s.hold t'
      omega
    have hsum := tally_eq Hold.writes s.hold t
    refine ⟨?_, fun t' hne => ?_⟩
    · have hwrites : (s.hold t).writes = 1 := by omega
      exact Hold.ext (hreads t) hwrites
    have hle := le_tallyBut Hold.writes s.hold hne
    have hwrites : (s.hold t').writes = 0 := by omega
    exact Hold.ext (hreads t') hwrites
  have hsound := hinv.sound t
  rw [hdied] at hsound
  exact hsound

/-- A writer has the mutex, and a reader has found it taken and spins. -/
theorem shared_mutex_excludes_writer : ∃ s : State Bool, Run step (fun _ _ => True) init
        [.lock false, .run false false, .lockShared true, .run true false] s ∧
      s.pc true = .lockShared (.spin 0 .load) ∧ s.hold false = ⟨0, 1⟩ ∧ s.hold true = ⟨0, 0⟩ ∧ s.signals ≤ 1 := by
  refine Run.exists_and (.cons trivial rfl (.cons trivial rfl (.cons trivial rfl (.cons trivial rfl (.nil _))))) rfl
    fun h => ?_
  obtain ⟨hexcl, -, hsignals, -⟩ := shared_mutex_excludes (by decide) _ _ h
  have hwriter := hexcl false (by decide)
  exact ⟨hwriter.1, hwriter.2 true nofun, hsignals⟩

end State

end Rpcsx.Rx.SharedMutex
