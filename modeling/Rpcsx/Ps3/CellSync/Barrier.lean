import Mathlib.Tactic.Ring
import Rpcsx.Lib.Run
import Rpcsx.Lib.Tally

/-!
# Barriers

`CellSyncBarrier`: one word of 16 bits counts the participants that have arrived and, once its top
bit is set, those that have yet to leave. An arrival is refused while the top bit is set and a
departure while it is not; the last arrival sets the bit, the last departure clears the word.
-/

namespace Rpcsx.Ps3.CellSync

open Lib Function Bool

/-! ## The word -/

def s16 (x : Int) : Int := x.bmod 0x10000

structure Barrier where
  value : Int
  count : Nat
  deriving DecidableEq

namespace Barrier

def setTop (value : Int) : Int := if value < 0 then value else value - 0x8000

/-- `CellSyncBarrier::try_notify`; `none` is `false`, with the word unchanged. -/
def tryNotify (ctrl : Barrier) : Option Barrier :=
  -- the top bit is the sign
  if ctrl.value < 0 then none
  else
    let value := s16 (ctrl.value + 1)
    some { ctrl with value := if value = ctrl.count then setTop value else value }

def tryWait (ctrl : Barrier) : Option Barrier :=
  if ¬ ctrl.value < 0 then none
  else
    let value := s16 (ctrl.value - 1)
    some { ctrl with value := if value = -0x8000 then 0 else value }

def barrierInitialize (totalCount : Nat) : Option Barrier :=
  if totalCount = 0 ∨ 32767 < totalCount then none else some ⟨0, totalCount⟩

def Arriving (ctrl : Barrier) (n : Nat) : Prop := ctrl.value = n ∧ n < ctrl.count

def Leaving (ctrl : Barrier) (n : Nat) : Prop := ctrl.value = n - 0x8000 ∧ 0 < n ∧ n ≤ ctrl.count

variable {ctrl : Barrier} {n : Nat}

theorem s16_of_range {x : Int} (hlow : -0x8000 ≤ x) (hhigh : x < 0x8000) : s16 x = x :=
  Int.bmod_eq_of_le_mul_two (by omega) (by omega)

theorem Arriving.tryWait_eq (h : ctrl.Arriving n) : ctrl.tryWait = none := by
  obtain ⟨hval, -⟩ := h
  exact if_pos (by omega)

theorem Leaving.tryNotify_eq (h : ctrl.Leaving n) (hcount : ctrl.count ≤ 32767) : ctrl.tryNotify = none := by
  obtain ⟨hval, -, hle⟩ := h
  exact if_pos (by omega)

/-- An arrival counts, and the last one turns the word over. -/
theorem Arriving.tryNotify_eq (h : ctrl.Arriving n) (hcount : ctrl.count ≤ 32767) :
    ∃ ctrl', ctrl.tryNotify = some ctrl' ∧ ctrl'.count = ctrl.count ∧
      (n + 1 < ctrl.count ∧ ctrl'.Arriving (n + 1) ∨ n + 1 = ctrl.count ∧ ctrl'.Leaving (n + 1)) := by
  obtain ⟨hval, hlt⟩ := h
  have hnext : s16 (ctrl.value + 1) = n + 1 := by rw [s16_of_range] <;> omega
  refine ⟨_, if_neg (by omega), rfl, ?_⟩
  rw [hnext]
  by_cases hlast : n + 1 = ctrl.count
  · refine .inr ⟨hlast, ?_, Nat.succ_pos n, le_of_eq hlast⟩
    rw [if_pos (by omega), setTop, if_neg (by omega)]
    rfl
  refine .inl ⟨by omega, ?_, ?_⟩
  · rw [if_neg (by omega)]
    rfl
  dsimp only
  omega

/-- A departure counts, and the last one clears the word. -/
theorem Leaving.tryWait_eq (h : ctrl.Leaving (n + 1)) (hcount : ctrl.count ≤ 32767) :
    ∃ ctrl', ctrl.tryWait = some ctrl' ∧ ctrl'.count = ctrl.count ∧
      (n = 0 ∧ ctrl'.Arriving 0 ∨ 0 < n ∧ ctrl'.Leaving n) := by
  obtain ⟨hval, -, hle⟩ := h
  have hnext : s16 (ctrl.value - 1) = n - 0x8000 := by rw [s16_of_range] <;> omega
  refine ⟨_, if_neg (by omega), rfl, ?_⟩
  rw [hnext]
  by_cases hlast : n = 0
  · refine .inl ⟨hlast, ?_, ?_⟩
    · rw [if_pos (by omega)]
      rfl
    dsimp only
    omega
  refine .inr ⟨by omega, ?_, by omega, ?_⟩
  · rw [if_neg (by omega)]
  dsimp only
  omega

end Barrier

/-! ## Participants -/

variable {T : Type} [DecidableEq T]

/-- A barrier and its participants. Beside the word stand the number of arrivals and departures so
far, who has arrived without leaving, and in which phase each participant arrived last. -/
structure BarrierState (T : Type) where
  ctrl : Barrier
  inside : T → Bool
  round : T → Nat
  notifies : Nat
  waits : Nat

/-- An attempt to arrive or to leave. The calls that wait make one attempt after another. -/
inductive BarrierCall (T : Type)
  | notify (t : T)
  | wait (t : T)

namespace BarrierState

def init (ctrl : Barrier) : BarrierState T := ⟨ctrl, fun _ => false, fun _ => 0, 0, 0⟩

def notifyPhase (s : BarrierState T) : Nat := s.notifies / s.ctrl.count

def waitPhase (s : BarrierState T) : Nat := s.waits / s.ctrl.count

def step (s : BarrierState T) : BarrierCall T → Option (BarrierState T)
  | .notify t =>
    match s.ctrl.tryNotify with
    | none => some s
    | some ctrl => some { s with
        ctrl := ctrl
        inside := update s.inside t true
        round := update s.round t s.notifyPhase
        notifies := s.notifies + 1 }
  | .wait t =>
    match s.ctrl.tryWait with
    | none => some s
    | some ctrl => some { s with
        ctrl := ctrl
        inside := update s.inside t false
        waits := s.waits + 1 }

def Alternates (s : BarrierState T) : BarrierCall T → Prop
  | .notify t => s.inside t = false
  | .wait t => s.inside t = true

variable [Fintype T]

def insiders (s : BarrierState T) : Nat := tally toNat s.inside

/-- The phase is `k`: its arrivals are under way, or all of them are done and its departures are. -/
structure InPhase (s : BarrierState T) (k : Nat) : Prop where
  count_pos : 0 < s.ctrl.count
  count_le : s.ctrl.count ≤ 32767
  word : s.ctrl.Arriving s.insiders ∧ s.waits = k * s.ctrl.count ∨
    s.ctrl.Leaving s.insiders ∧ s.notifies = (k + 1) * s.ctrl.count
  balance : s.notifies = s.waits + s.insiders
  round : ∀ t, s.inside t = true → s.round t = k

variable {s s' : BarrierState T} {k : Nat} {call : BarrierCall T} {t : T}

omit [DecidableEq T] in
theorem InPhase.notifyPhase_eq (h : s.InPhase k) (hword : s.ctrl.Arriving s.insiders)
    (hwaits : s.waits = k * s.ctrl.count) : s.notifyPhase = k := by
  have hlt := hword.2
  rw [notifyPhase, h.balance, hwaits, add_comm, Nat.add_mul_div_right _ _ h.count_pos, Nat.div_eq_of_lt hlt, zero_add]

omit [DecidableEq T] in
theorem InPhase.waitPhase_eq (h : s.InPhase k) (hword : s.ctrl.Leaving s.insiders)
    (hnotifies : s.notifies = (k + 1) * s.ctrl.count) : s.waitPhase = k := by
  have hle := hword.2
  have hbalance := h.balance
  have hcount := h.count_pos
  rw [waitPhase, Nat.div_eq_iff hcount]
  rw [Nat.succ_mul] at hnotifies
  omega

theorem insiders_enter (s : BarrierState T) (h : s.inside t = false) :
    tally toNat (update s.inside t true) = s.insiders + 1 := by
  rw [insiders, tally_update, tally_eq toNat s.inside t, h]
  rfl

theorem insiders_leave (s : BarrierState T) (h : s.inside t) :
    s.insiders = tally toNat (update s.inside t false) + 1 := by
  rw [insiders, tally_update, tally_eq toNat s.inside t, h]
  rfl

/-- With no one inside, everyone is where a new phase may begin. -/
theorem outside_of_insiders (h : tally toNat s.inside = 0) (t : T) : s.inside t = false := by
  have hle := le_tally toNat s.inside t
  rw [h] at hle
  cases hin : s.inside t with
  | false => rfl
  | true =>
    rw [hin] at hle
    exact absurd hle (by decide)

/-- An arrival. -/
theorem InPhase.notify (h : s.InPhase k) (hout : s.inside t = false)
    (hstep : s.step (.notify t) = some s') : s'.InPhase k := by
  rcases h.word with ⟨hword, hwaits⟩ | ⟨hword, -⟩
  · obtain ⟨ctrl', htry, hcount, hnext⟩ := hword.tryNotify_eq h.count_le
    have hphase := h.notifyPhase_eq hword hwaits
    have henter := insiders_enter s hout
    have hbalance := h.balance
    rw [step, htry] at hstep
    cases hstep
    rw [← henter] at hnext
    refine ⟨hcount ▸ h.count_pos, hcount ▸ h.count_le, ?_, ?_, fun t' ht' => ?_⟩
    · rcases hnext with ⟨-, hnext⟩ | ⟨hlast, hnext⟩
      · exact .inl ⟨hnext, hwaits.trans (by rw [hcount])⟩
      refine .inr ⟨hnext, ?_⟩
      dsimp only
      rw [hcount, Nat.succ_mul, ← hwaits]
      omega
    · change s.notifies + 1 = s.waits + tally toNat (update s.inside t true)
      omega
    dsimp only at ht' ⊢
    by_cases heq : t' = t
    · rw [heq, update_self, hphase]
    rw [update_of_ne heq] at ht' ⊢
    exact h.round t' ht'
  rw [step, hword.tryNotify_eq h.count_le] at hstep
  cases hstep
  exact h

/-- A departure; the last one begins a new phase. -/
theorem InPhase.wait (h : s.InPhase k) (hin : s.inside t)
    (hstep : s.step (.wait t) = some s') : s'.InPhase k ∨ s'.InPhase (k + 1) := by
  rcases h.word with ⟨hword, -⟩ | ⟨hword, hnotifies⟩
  · rw [step, hword.tryWait_eq] at hstep
    cases hstep
    exact .inl h
  have hleave := insiders_leave s hin
  have hbalance := h.balance
  rw [hleave] at hword
  obtain ⟨ctrl', htry, hcount, hnext⟩ := hword.tryWait_eq h.count_le
  rw [step, htry] at hstep
  cases hstep
  have hbalance' : s.notifies = s.waits + 1 + tally toNat (update s.inside t false) := by omega
  rcases hnext with ⟨hlast, hnext⟩ | ⟨-, hnext⟩
  · refine .inr ⟨hcount ▸ h.count_pos, hcount ▸ h.count_le, .inl ⟨?_, ?_⟩, hbalance', ?_⟩
    · rw [insiders, hlast]
      exact hnext
    · dsimp only
      rw [hcount, ← hnotifies]
      omega
    intro t' ht'
    rw [outside_of_insiders hlast t'] at ht'
    cases ht'
  refine .inl ⟨hcount ▸ h.count_pos, hcount ▸ h.count_le, .inr ⟨hnext, ?_⟩, hbalance', ?_⟩
  · rw [hcount]
    exact hnotifies
  exact (forall_update_iff s.inside fun t' b => b = true → s.round t' = k).mpr ⟨nofun, fun t' _ => h.round t'⟩

omit [DecidableEq T] in
theorem init_inPhase {ctrl : Barrier} {n : Nat} (h : Barrier.barrierInitialize n = some ctrl) :
    (init ctrl : BarrierState T).InPhase 0 := by
  rw [Barrier.barrierInitialize] at h
  split at h
  case isTrue => cases h
  case isFalse hn =>
    cases h
    have hnone : (init ⟨0, n⟩ : BarrierState T).insiders = 0 := tally_eq_zero fun _ => rfl
    refine ⟨by change 0 < n; omega, by change n ≤ 32767; omega, .inl ⟨?_, ?_⟩, ?_, nofun⟩
    · rw [hnone]
      exact ⟨rfl, by change 0 < n; omega⟩
    · exact (Nat.zero_mul _).symm
    rw [hnone]
    rfl

omit [Fintype T] in
theorem step_count (hstep : s.step call = some s') : s'.ctrl.count = s.ctrl.count := by
  cases call with
  | notify t =>
    rw [step, Barrier.tryNotify] at hstep
    split at hstep <;> rename_i htry <;> cases hstep
    · rfl
    split at htry
    · cases htry
    · cases htry
      rfl
  | wait t =>
    rw [step, Barrier.tryWait] at hstep
    split at hstep <;> rename_i htry <;> cases hstep
    · rfl
    split at htry
    · cases htry
    · cases htry
      rfl

theorem InPhase.step (h : s.InPhase k) (hok : s.Alternates call)
    (hstep : s.step call = some s') : ∃ k', s'.InPhase k' := by
  cases call with
  | notify t => exact ⟨k, h.notify hok hstep⟩
  | wait t =>
    rcases h.wait hok hstep with h' | h'
    · exact ⟨k, h'⟩
    · exact ⟨k + 1, h'⟩

/-- In every run of participants that take turns, an arrival of a phase is accepted only when all
departures of the phases before have happened, a departure of a phase only when all its arrivals
have, and by a participant that arrived in that phase; the word counts the participants inside. -/
theorem barrier_separates {ctrl : Barrier} {n : Nat} {calls : List (BarrierCall T)}
    (hinit : Barrier.barrierInitialize n = some ctrl) (hrun : Run step Alternates (init ctrl) calls s) :
    (s.ctrl.tryNotify ≠ none → s.waits = s.notifyPhase * n) ∧ (∀ t, s.ctrl.tryWait ≠ none → s.inside t = true →
      s.notifies = (s.waitPhase + 1) * n ∧ s.round t = s.waitPhase) ∧
    (s.ctrl.Arriving s.insiders ∨ s.ctrl.Leaving s.insiders) ∧ s.ctrl.count = n := by
  obtain ⟨hcount, k, hk⟩ : s.ctrl.count = n ∧ ∃ k, s.InPhase k := by
    refine hrun.invariant (P := fun s => s.ctrl.count = n ∧ ∃ k, s.InPhase k) ⟨?_, 0, init_inPhase hinit⟩ ?_
    · rw [Barrier.barrierInitialize] at hinit
      split at hinit
      · cases hinit
      · cases hinit
        rfl
    rintro s call s' ⟨hcount, k, hk⟩ hok hstep
    exact ⟨(step_count hstep).trans hcount, hk.step hok hstep⟩
  subst hcount
  rcases hk.word with ⟨hword, hwaits⟩ | ⟨hword, hnotifies⟩
  · refine ⟨fun _ => ?_, fun t hwait => absurd hword.tryWait_eq hwait, .inl hword, rfl⟩
    rw [hk.notifyPhase_eq hword hwaits, hwaits]
  refine ⟨fun hnotify => absurd (hword.tryNotify_eq hk.count_le) hnotify, fun t _ hin => ?_, .inr hword, rfl⟩
  rw [hk.waitPhase_eq hword hnotifies]
  exact ⟨hnotifies, hk.round t hin⟩

/-- Two participants arrive, and then one of them can leave. -/
theorem barrier_separates_two : ∃ s : BarrierState Bool,
    Run step Alternates (init ⟨0, 2⟩) [.notify true, .notify false] s ∧ s.ctrl.tryWait ≠ none ∧
      s.notifies = (s.waitPhase + 1) * 2 :=
  Run.exists_and (.cons rfl rfl (.cons rfl rfl (.nil _))) (by decide) fun h =>
    ((barrier_separates (n := 2) rfl h).2.1 true (by decide) (by decide)).1

/-- With enough participants someone can arrive, or leave. -/
theorem InPhase.progress (h : s.InPhase k) (hcard : s.ctrl.count ≤ Fintype.card T) : ∃ call s', s.Alternates call ∧
    s.step call = some s' ∧ s'.notifies + s'.waits = s.notifies + s.waits + 1 := by
  rcases h.word with ⟨hword, -⟩ | ⟨hword, -⟩
  · obtain ⟨t, ht⟩ : ∃ t, s.inside t = false := by
      by_contra! hall
      have hsum : s.insiders = Fintype.card T := by simp [insiders, tally, hall]
      have hlt := hword.2
      omega
    obtain ⟨ctrl', htry, -⟩ := hword.tryNotify_eq h.count_le
    exact ⟨.notify t, _, ht, by rw [BarrierState.step, htry], by dsimp only; omega⟩
  obtain ⟨t, ht⟩ : ∃ t, s.inside t = true := by
    by_contra! hall
    have hzero : s.insiders = 0 := tally_eq_zero fun t => by simp [hall]
    exact hword.2.1.ne' hzero
  have hleave := insiders_leave s ht
  rw [hleave] at hword
  obtain ⟨ctrl', htry, -⟩ := hword.tryWait_eq h.count_le
  exact ⟨.wait t, _, ht, by rw [BarrierState.step, htry], by dsimp only; omega⟩

/-- **The barrier never gets stuck** in a run with as many participants as it waits for: it can go on with any number
of arrivals and departures. -/
theorem barrier_progress {ctrl : Barrier} {n : Nat} {calls : List (BarrierCall T)}
    (hinit : Barrier.barrierInitialize n = some ctrl) (hcard : ctrl.count ≤ Fintype.card T)
    (hrun : Run step Alternates (init ctrl) calls s) (m : Nat) : ∃ calls' s', Run step Alternates s calls' s' ∧
      calls'.length = m ∧ s'.notifies + s'.waits = s.notifies + s.waits + m := by
  have hinv : s.ctrl.count = ctrl.count ∧ ∃ k, s.InPhase k := by
    refine hrun.invariant (P := fun s => s.ctrl.count = ctrl.count ∧ ∃ k, s.InPhase k) ⟨rfl, 0, init_inPhase hinit⟩ ?_
    rintro s call s' ⟨hcount, k, hk⟩ hok hstep
    exact ⟨(step_count hstep).trans hcount, hk.step hok hstep⟩
  clear hrun
  induction m generalizing s with
  | zero => exact ⟨[], s, .nil s, rfl, rfl⟩
  | succ m ih =>
    obtain ⟨hcount, k, hk⟩ := hinv
    obtain ⟨call, s1, hok, hstep, hsum⟩ := hk.progress (hcount ▸ hcard)
    obtain ⟨calls', s', hrun, hlen, hsum'⟩ := ih ⟨(step_count hstep).trans hcount, hk.step hok hstep⟩
    exact ⟨call :: calls', s', .cons hok hstep hrun, by rw [List.length_cons, hlen], by omega⟩

theorem barrier_progress_two : ∃ s : BarrierState Bool, Run step Alternates (init ⟨0, 2⟩) [.notify true] s ∧
    ∃ calls' s', Run step Alternates s calls' s' ∧ calls'.length = 8 ∧ s'.notifies + s'.waits = 9 :=
  have hrun : Run step Alternates (init ⟨0, 2⟩ : BarrierState Bool) [.notify true] _ := .cons rfl rfl (.nil _)
  ⟨_, hrun, barrier_progress (n := 2) rfl le_rfl hrun 8⟩

end BarrierState

end Rpcsx.Ps3.CellSync
