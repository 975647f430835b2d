import Rpcsx.Lib.Run
import Rpcsx.Lib.Tally
import Rpcsx.Rx.SharedMutex.Calls
import Rpcsx.Rx.SharedCV.Basic

/-!
# Runs of a `shared_cv`

A waker adds writers to the word of the mutex before it knows whether the waiters are still there. As
long as this goes well, a wait returns with the mutex, and both words count what they should. It goes
wrong in four ways: the mutex is taken for waiters of which none is left; it is taken while it looks
free because writers were removed again, although a release that has seen them is about to signal; the
writers that several wakers add do not fit into the word; and a wait for the mutex is interrupted.
-/

namespace Rpcsx.Rx.SharedCV

open Lib SharedMutex Counts Function Fintype

namespace Pc

/-- The writers in the word of the mutex that wait for this thread, or that it has added. -/
def queued : Pc → Nat
  | .lock pc | .relock _ pc => pc.queued
  | .implWait _ => 1
  | .grant count _ locked => count - locked.toNat
  | .fixup extra _ _ => extra
  | _ => 0

def owning : Pc → Nat
  | .grant _ _ locked => locked.toNat
  | _ => 0

def signalling : Pc → Nat
  | .unlock pc | .waitUnlock _ pc => pc.signalling
  | _ => 0

def waiting : Pc → Nat
  | .waitUnlock _ _ | .sleep _ | .cleanup _ => 1
  | _ => 0

def Sound (h : Hold) : Pc → Prop
  | .lock pc | .relock _ pc => pc.Sound h
  | .unlock pc | .waitUnlock _ pc => pc.Sound Hold.writes h
  | .waited _ | .addWaiter => h.writes ≠ 0
  | .force count _ | .grant count _ _ => count ≠ 0
  | .aborted | .died => False
  | _ => True

def Adds (value : Nat) (count : Nat) : Pc → Prop
  | .lock pc | .relock _ pc => pc.Adds value ∧ count = 1
  | .force n _ => count = n
  | _ => False

end Pc

/-- Both words in terms of what they count: holds, mutexes taken for waiters, writers that wait,
releases that have still to signal, and threads that wait for the condition. -/
structure Facts (mutex cv reading writing owning queued signalling waiting signals granted
    lockGranted : Nat) : Prop where
  valid : Counts.Valid
    ⟨reading, writing + owning + lockGranted, queued + (granted - lockGranted), signalling, signals⟩
  word : mutex = Counts.word
    ⟨reading, writing + owning + lockGranted, queued + (granted - lockGranted), signalling, signals⟩
  granted_le : granted ≤ waiting
  lock_le : lockGranted ≤ granted
  cv : cv = (waiting - granted) + 0x10000 * granted + 0x80000000 * lockGranted

/-- Contributions are passed on, and the word of the mutex stays. -/
theorem Facts.recount {mutex cv cv' R W W' O O' Q Q' F N N' S g g' l l' : Nat}
    (h : Facts mutex cv R W O Q F N S g l) (hholding : W' + O' + l' = W + O + l)
    (hqueued : Q' + (g' - l') = Q + (g - l)) (hle : g' ≤ N') (hlock : l' ≤ g')
    (hcv : cv' = (N' - g') + 0x10000 * g' + 0x80000000 * l') : Facts mutex cv' R W' O' Q' F N' S g' l' := by
  refine ⟨?_, ?_, hle, hlock, hcv⟩
  · rw [hholding, hqueued]
    exact h.valid
  rw [hholding, hqueued]
  exact h.word

section Forced

variable {mutex cv R W O Q F N S g l count : Nat} (hfits : mutex % c_sig + c_one * count < c_sig)

include hfits

/-- Writers are added, and one of them takes the pending signal. -/
theorem Facts.takeSignal (h : Facts mutex cv R W (O + 0) (Q + 0) F N S g l)
    (hcount : count ≠ 0) (hsig : c_sig ≤ mutex) :
    Facts (add (sub mutex c_sig) (c_one * count)) cv R W (O + 1) (Q + (count - 1)) F N (S - 1) g l := by
  obtain ⟨⟨htoken, hreaders, hfew, hroom⟩, hword, hle, hlock, hcv⟩ := h
  simp only [Counts.word, c_one, c_sig] at *
  refine ⟨⟨?_, ?_, hfew, ?_⟩, ?_, hle, hlock, hcv⟩
  all_goals simp only [Counts.word, c_one, c_sig, add, sub]
  all_goals omega

/-- Writers are added to a free mutex, and one of them takes it. -/
theorem Facts.takeFree (h : Facts mutex cv R W (O + 0) (Q + 0) (F + 0) N S g l)
    (hcount : count ≠ 0) (hzero : mutex = 0) (hfree : F = 0) :
    Facts (add mutex (c_one * count)) cv R W (O + 1) (Q + (count - 1)) (F + 0) N S g l := by
  obtain ⟨⟨htoken, hreaders, hfew, hroom⟩, hword, hle, hlock, hcv⟩ := h
  simp only [Counts.word, c_one, c_sig] at *
  refine ⟨⟨?_, ?_, hfew, ?_⟩, ?_, hle, hlock, hcv⟩
  all_goals simp only [Counts.word, c_one, c_sig, add]
  all_goals omega

/-- Writers are added that wait. -/
theorem Facts.enqueue (h : Facts mutex cv R W (O + 0) (Q + 0) F N S g l)
    (hlow : mutex < c_sig) :
    Facts (add mutex (c_one * count)) cv R W (O + 0) (Q + count) F N S g l := by
  obtain ⟨⟨htoken, hreaders, hfew, hroom⟩, hword, hle, hlock, hcv⟩ := h
  simp only [Counts.word, c_one, c_sig] at *
  refine ⟨⟨htoken, hreaders, hfew, ?_⟩, ?_, hle, hlock, hcv⟩
  all_goals simp only [Counts.word, c_one, c_sig, add]
  all_goals omega

end Forced

namespace State

variable {T : Type} [Fintype T] [DecidableEq T] {s s' : State T} {t : T}

structure Inv (s : State T) : Prop where
  facts : Facts s.mutex s.cv (tally Hold.reads s.hold) (tally Hold.writes s.hold)
    (tally Pc.owning s.pc) (tally Pc.queued s.pc) (tally Pc.signalling s.pc) (tally Pc.waiting s.pc)
    s.signals s.granted s.lockGranted
  sound : ∀ t, (s.pc t).Sound (s.hold t)
  reads : ∀ t, (s.hold t).reads = 0

variable {p : Pc}

/-- One thread moves. -/
theorem Inv.settle {k : Hold} (h : Inv s) (hpc : s'.pc = update s.pc t p)
    (hhold : s'.hold = update s.hold t k) (hreads : k.reads = (s.hold t).reads) (hsound : p.Sound k)
    (hfacts : Facts s'.mutex s'.cv (tallyBut Hold.reads s.hold t + k.reads)
      (tallyBut Hold.writes s.hold t + k.writes) (tallyBut Pc.owning s.pc t + p.owning)
      (tallyBut Pc.queued s.pc t + p.queued) (tallyBut Pc.signalling s.pc t + p.signalling)
      (tallyBut Pc.waiting s.pc t + p.waiting) s'.signals s'.granted s'.lockGranted) : Inv s' := by
  refine ⟨?_, fun t' => ?_, ?_⟩
  · rw [hpc, hhold, tally_update, tally_update, tally_update, tally_update, tally_update, tally_update]
    exact hfacts
  · rw [hpc, hhold]
    by_cases hself : t' = t
    · subst hself
      rwa [update_self, update_self]
    rw [update_of_ne hself, update_of_ne hself]
    exact h.sound t'
  rw [hhold]
  exact (forall_update_iff s.hold fun _ k => k.reads = 0).mpr ⟨hreads.trans (h.reads t), fun t' _ => h.reads t'⟩

/-- The facts, with the contributions of one thread apart. -/
theorem Inv.facts_at (h : Inv s) (t : T) : Facts s.mutex s.cv (tallyBut Hold.reads s.hold t + (s.hold t).reads)
      (tallyBut Hold.writes s.hold t + (s.hold t).writes) (tallyBut Pc.owning s.pc t + (s.pc t).owning)
      (tallyBut Pc.queued s.pc t + (s.pc t).queued) (tallyBut Pc.signalling s.pc t + (s.pc t).signalling)
      (tallyBut Pc.waiting s.pc t + (s.pc t).waiting) s.signals s.granted s.lockGranted := by
  rw [← tally_eq, ← tally_eq, ← tally_eq, ← tally_eq, ← tally_eq, ← tally_eq]
  exact h.facts

theorem Inv.waiting_lt (_h : Inv s) (hcard : card T < 0x4000) (t : T) :
    tallyBut Pc.waiting s.pc t + (s.pc t).waiting < 0x4000 := by
  rw [← tally_eq]
  refine lt_of_le_of_lt (tally_le_card (fun pc => ?_) s.pc) hcard
  cases pc <;> simp [Pc.waiting]

/-- The thread goes on to a place at which it counts for the same. -/
theorem Inv.goto {p0 : Pc} (h : Inv s) (hpc : s.pc t = p0) (hsound : p.Sound (s.hold t)) (ho : p.owning = p0.owning)
    (hq : p.queued = p0.queued) (hf : p.signalling = p0.signalling) (hw : p.waiting = p0.waiting) :
    Inv (s.goto t p) := by
  have hfacts := h.facts_at t
  rw [hpc, ← ho, ← hq, ← hf, ← hw] at hfacts
  exact h.settle rfl (update_eq_self t s.hold).symm rfl hsound hfacts

variable {cv : Nat}

/-- The thread changes the word of the condition variable and goes on. -/
theorem Inv.setCv {p0 : Pc} {granted lockGranted : Nat} (h : Inv s) (hpc : s.pc t = p0) (hsound : p.Sound (s.hold t))
    (hf : p.signalling = p0.signalling) (hholding : p.owning + lockGranted = p0.owning + s.lockGranted)
    (hqueued : p.queued + (granted - lockGranted) = p0.queued + (s.granted - s.lockGranted))
    (hle : granted ≤ tallyBut Pc.waiting s.pc t + p.waiting) (hlock : lockGranted ≤ granted)
    (hcv : cv = tallyBut Pc.waiting s.pc t + p.waiting - granted + 0x10000 * granted + 0x80000000 * lockGranted) :
    Inv ({ s with cv, granted, lockGranted }.goto t p) := by
  have hfacts := h.facts_at t
  rw [hpc, ← hf] at hfacts
  refine h.settle rfl (update_eq_self t s.hold).symm rfl hsound (hfacts.recount ?_ ?_ hle hlock hcv)
  · simp only [State.goto, add_assoc, hholding]
  · simp only [State.goto, add_assoc, hqueued]

/-- The thread changes the word of the mutex and goes on. -/
theorem Inv.setMutex {mutex signals : Nat} (h : Inv s) (hsound : p.Sound (s.hold t))
    (hfacts : Facts mutex s.cv (tallyBut Hold.reads s.hold t + (s.hold t).reads)
      (tallyBut Hold.writes s.hold t + (s.hold t).writes) (tallyBut Pc.owning s.pc t + p.owning)
      (tallyBut Pc.queued s.pc t + p.queued) (tallyBut Pc.signalling s.pc t + p.signalling)
      (tallyBut Pc.waiting s.pc t + p.waiting) signals s.granted s.lockGranted) :
    Inv ({ s with mutex, signals }.goto t p) :=
  h.settle rfl (update_eq_self t s.hold).symm rfl hsound hfacts

/-! ## Calls of the mutex -/

def others (s : State T) (t : T) : Counts :=
  ⟨tallyBut Hold.reads s.hold t, tallyBut Hold.writes s.hold t + tally Pc.owning s.pc + s.lockGranted,
    tallyBut Pc.queued s.pc t + (s.granted - s.lockGranted), tallyBut Pc.signalling s.pc t, s.signals⟩

theorem Inv.others (h : Inv s) (t : T) :
    ((s.others t).join (s.hold t) (s.pc t).queued (s.pc t).signalling).Shows s.mutex := by
  have hjoin : (s.others t).join (s.hold t) (s.pc t).queued (s.pc t).signalling =
      ⟨tally Hold.reads s.hold, tally Hold.writes s.hold + tally Pc.owning s.pc + s.lockGranted,
        tally Pc.queued s.pc + (s.granted - s.lockGranted), tally Pc.signalling s.pc, s.signals⟩ := by
    rw [tally_eq Hold.reads s.hold t, tally_eq Hold.writes s.hold t, tally_eq Pc.queued s.pc t,
      tally_eq Pc.signalling s.pc t]
    simp only [State.others, Counts.join, Counts.mk.injEq, and_true, true_and]
    omega
  rw [hjoin]
  exact ⟨h.facts.valid, h.facts.word⟩

/-- A step of a call of the mutex, at places that count for the condition variable alike. -/
theorem Inv.call {P : Type} {queued signalling : P → Nat} {sound : Hold → P → Prop} {pc : P}
    {turn : Turn P} {place : P → Pc} {done fail : Pc} {n : Nat} (h : Inv s) (hpc : s.pc t = place pc)
    (hk : Kept queued signalling sound (s.others t) (s.hold t) pc turn)
    (hplace : ∀ p, (place p).queued = queued p ∧ (place p).signalling = signalling p ∧
      (place p).owning = 0 ∧ (place p).waiting = n)
    (hsound : ∀ h p, sound h p → (place p).Sound h) (hfail : turn.flow ≠ .fail)
    (hreads : ∀ h, (turn.effect.apply h).reads = h.reads)
    (hdone : turn.flow = .done → done.Sound (turn.effect.apply (s.hold t)))
    (hdone' : done.queued = 0 ∧ done.signalling = 0 ∧ done.owning = 0 ∧ done.waiting = n) :
    Inv (s.apply t (Turn.into turn place done fail)) := by
  -- the place the call goes on to, and what it counts for
  obtain ⟨p, hflow, hq, hf, ho, hw, hp⟩ : ∃ p, (Turn.into turn place done fail).flow = .goto p ∧
      p.queued = turn.flow.weight queued ∧ p.signalling = turn.flow.weight signalling ∧ p.owning = 0 ∧
      p.waiting = n ∧ p.Sound (turn.effect.apply (s.hold t)) := by
    have hleads := hk.leads
    cases hflow : turn.flow with
    | goto p =>
      rw [hflow] at hleads
      obtain ⟨hq, hf, ho, hw⟩ := hplace p
      exact ⟨place p, by simp only [Turn.into, hflow], hq, hf, ho, hw, hsound _ _ hleads⟩
    | done =>
      obtain ⟨hq, hf, ho, hw⟩ := hdone'
      exact ⟨done, by simp only [Turn.into, hflow], hq, hf, ho, hw, hdone hflow⟩
    | fail => exact absurd hflow hfail
    | die =>
      rw [hflow] at hleads
      exact hleads.elim
  obtain ⟨-, -, howner, hwaits⟩ := hplace pc
  rw [← hpc] at howner hwaits
  have howning := tally_eq Pc.owning s.pc t
  have hwaiting := tally_eq Pc.waiting s.pc t
  have hcounts : (⟨tallyBut Hold.reads s.hold t + (turn.effect.apply (s.hold t)).reads,
      tallyBut Hold.writes s.hold t + (turn.effect.apply (s.hold t)).writes +
        (tallyBut Pc.owning s.pc t + p.owning) + s.lockGranted,
      tallyBut Pc.queued s.pc t + p.queued + (s.granted - s.lockGranted),
      tallyBut Pc.signalling s.pc t + p.signalling, turn.signal.apply s.signals⟩ : Counts) =
      turn.after queued signalling (s.others t) (s.hold t) := by
    simp only [Turn.after, Counts.join, State.others, Counts.mk.injEq, ← hq, ← hf, and_true, true_and]
    omega
  have hcv : s.cv = tallyBut Pc.waiting s.pc t + p.waiting - s.granted + 0x10000 * s.granted +
      0x80000000 * s.lockGranted := by rw [h.facts.cv, hwaiting, hwaits, hw]
  refine h.settle ?_ rfl (hreads _) hp ⟨?_, ?_, ?_, h.facts.lock_le, hcv⟩
  · simp only [State.apply, hflow]
  · exact hcounts ▸ hk.valid
  · exact hcounts ▸ hk.word
  have hle := h.facts.granted_le
  rw [hwaiting, hwaits, ← hw] at hle
  exact hle

/-! ## Operations on the word of the condition variable -/

variable {a g l : Nat}

/-- The fields of the word. -/
theorem fields (h : cv = a + 0x10000 * g + 0x80000000 * l) (ha : a < 0x4000) (hg : g < 0x4000) (hl : l ≤ 1) :
    waiters cv = a ∧ SharedCV.granted cv = g ∧ (SharedCV.locked cv ↔ l = 1) := by
  refine ⟨?_, ?_, ?_⟩
  · rw [waiters]
    omega
  · rw [SharedCV.granted]
    omega
  rw [SharedCV.locked, decide_eq_true_eq]
  omega

/-- A waiter takes a signal, with the mutex if it was taken for it; or it is no longer counted. -/
theorem cleanupValue_eq (result : Errc) (h : cv = a + 0x10000 * g + 0x80000000 * l) (ha : a < 0x4000) (hg : g < 0x4000)
    (hl : l ≤ 1) (hlg : l ≤ g) (hself : g = 0 → 1 ≤ a) :
    cleanupValue cv result = if g = 0 then (if result = .tryAgain then a else a - 1) else a + 0x10000 * (g - 1) := by
  by_cases hzero : g = 0
  · obtain rfl : cv = a := by omega
    have hlow : ∀ n, n < 0x4000 → SharedCV.granted n = 0 ∧ SharedCV.locked n = false := by
      intro n hn
      rw [SharedCV.granted, SharedCV.locked, decide_eq_false_iff_not]
      omega
    have hsub : sub cv 1 = cv - 1 := sub_eq (hself hzero) (lt_trans ha (by decide))
    have hdiv : cv / 0x10000 = 0 := Nat.div_eq_of_lt (by omega)
    rw [if_pos hzero, cleanupValue]
    by_cases hagain : result = .tryAgain
    · simp [hagain, hlow cv ha]
    · simp [hagain, hdiv, hsub, hlow (cv - 1) (by omega)]
  have hdiv : cv / 0x10000 ≠ 0 := by omega
  have hgranted : SharedCV.granted cv ≠ 0 := by
    rw [SharedCV.granted]
    omega
  have hlocked : SharedCV.locked (cv - 0x10000) = decide (l = 1) := by
    rw [SharedCV.locked, decide_eq_decide]
    omega
  rw [if_neg hzero, cleanupValue]
  simp only [hdiv, false_and, if_false, hgranted, ne_eq, not_false_eq_true, if_true, hlocked, decide_eq_true_eq]
  split_ifs <;> omega

theorem Inv.addWaiter (h : Inv s) (hpc : s.pc t = .addWaiter) : Inv (s.addWaiter t) := by
  have hsound := h.sound t
  have hfacts := h.facts_at t
  rw [hpc] at hsound hfacts
  rw [State.addWaiter]
  split
  · exact h.goto hpc hsound rfl rfl rfl rfl
  have hle := hfacts.granted_le
  have hcv := hfacts.cv
  simp only [Pc.waiting] at hle hcv
  refine h.setCv hpc hsound rfl rfl rfl (Nat.le_succ_of_le hle) hfacts.lock_le ?_
  simp only [Pc.waiting]
  omega

theorem Inv.cleanup {result : Errc} (h : Inv s) (hcard : card T < 0x4000)
    (hpc : s.pc t = .cleanup result) : Inv (s.cleanup t result) := by
  have hfacts := h.facts_at t
  have hwaiting := h.waiting_lt hcard t
  rw [hpc] at hfacts hwaiting
  have htoken := hfacts.valid.token
  have hle := hfacts.granted_le
  have hlock := hfacts.lock_le
  have hcv := hfacts.cv
  simp only [Pc.waiting, Pc.owning, Pc.signalling] at hle hcv hwaiting htoken
  obtain ⟨-, hgranted, hlocked⟩ := fields hcv (by omega) (by omega) (by omega)
  have hvalue := cleanupValue_eq result hcv (by omega) (by omega) (by omega) hlock (by omega)
  simp only [State.cleanup, hgranted, hvalue]
  by_cases hl : SharedCV.locked s.cv
  · have hone := hlocked.mp hl
    have hpos : s.granted ≠ 0 := by omega
    simp only [hl, hpos, ne_eq, not_false_eq_true, if_true, if_false]
    refine h.settle rfl rfl rfl (Nat.succ_ne_zero _) (hfacts.recount ?_ ?_ ?_ ?_ ?_)
    all_goals simp only [State.goto, Effect.apply, Pc.waiting, Pc.owning, Pc.queued]
    all_goals omega
  have hzero : s.lockGranted = 0 := by
    have := mt hlocked.mpr hl
    omega
  -- the wait goes on, it is over, or a signal is taken
  by_cases hpos : s.granted = 0
  · by_cases hagain : result = .tryAgain <;>
      simp only [hl, hpos, hagain, ne_eq, not_true_eq_false, not_false_eq_true, Bool.false_eq_true,
        if_true, if_false] <;>
      refine h.setCv hpc trivial rfl ?_ ?_ ?_ (by omega) ?_ <;>
      simp only [Pc.waiting, Pc.owning, Pc.queued, LockPc.queued] <;> omega
  simp only [hl, hpos, ne_eq, not_false_eq_true, Bool.false_eq_true, if_true, if_false]
  refine h.setCv hpc trivial rfl ?_ ?_ ?_ (by omega) ?_ <;> simp only [Pc.waiting, Pc.owning, Pc.queued] <;> omega

/-- The word after a grant of `n` signals. -/
theorem grantValue_eq {n : Nat} (locked : Bool) (h : cv = a + 0x10000 * g + 0x80000000 * l) (ha : a + g < 0x4000)
    (hl : l + locked.toNat ≤ 1) (hn : n ≤ a) :
    sub (add (if locked ∧ SharedCV.locked cv = false then cv + 0x80000000 else cv) (0x10000 * n)) n =
      a - n + 0x10000 * (g + n) + 0x80000000 * (l + locked.toNat) := by
  have hvalue : (if locked ∧ SharedCV.locked cv = false then cv + 0x80000000 else cv) =
      cv + 0x80000000 * locked.toNat := by
    cases locked with
    | true =>
      have hfree : SharedCV.locked cv = false := by
        rw [SharedCV.locked, decide_eq_false_iff_not]
        simp only [Bool.toNat_true] at hl
        omega
      rw [if_pos ⟨rfl, hfree⟩]
      rfl
    | false => rw [if_neg (by simp)]; rfl
  rw [hvalue, sub, add]
  omega

variable {count : Nat} {isOne : Bool} {answer : Answer}

theorem Inv.grant {locked : Bool} (h : Inv s) (hcard : card T < 0x4000)
    (hpc : s.pc t = .grant count isOne locked) (hwaiters : locked → waiters s.cv ≠ 0) :
    Inv (s.grant t count isOne locked) := by
  have hfacts := h.facts_at t
  have hwaiting := h.waiting_lt hcard t
  have hcount := h.sound t
  rw [hpc] at hfacts hwaiting hcount
  have htoken := hfacts.valid.token
  have hle := hfacts.granted_le
  have hlock := hfacts.lock_le
  have hcv := hfacts.cv
  simp only [Pc.waiting, Pc.owning, Pc.Sound] at hle hcv hwaiting htoken hcount
  obtain ⟨hwait, -, -⟩ := fields hcv (by omega) (by omega) (by omega)
  obtain ⟨n, hn⟩ : ∃ n, min count (waiters s.cv) = n := ⟨_, rfl⟩
  have hmost : n ≤ count := by omega
  have hleft : n ≤ tallyBut Pc.waiting s.pc t + 0 - s.granted := by omega
  have hsome : locked.toNat ≤ n := by
    cases locked with
    | true =>
      have := hwaiters rfl
      omega
    | false => exact Nat.zero_le _
  have habort : ¬ (locked ∧ n = 0) := by
    rintro ⟨rfl, rfl⟩
    exact absurd hsome (by decide)
  have hword := grantValue_eq locked hcv (by omega) (by omega) hleft
  rw [← Nat.sub_add_eq] at hword
  simp only [State.grant, hn, if_neg habort]
  by_cases hextra : n < count
  · rw [if_pos hextra]
    refine h.setCv hpc trivial rfl ?_ ?_ ?_ (by omega) hword <;> simp only [Pc.waiting, Pc.owning, Pc.queued] <;> omega
  have hpos : n ≠ 0 := by omega
  rw [if_neg hextra, afterGrant, if_pos hpos]
  refine h.setCv hpc trivial rfl ?_ ?_ ?_ (by omega) hword <;> simp only [Pc.waiting, Pc.owning, Pc.queued] <;> omega

/-! ## Forced locks -/

theorem afterGrant_sound (count : Nat) (isOne : Bool) (h : Hold) : (afterGrant count isOne).Sound h := by
  rw [afterGrant]
  split <;> trivial

theorem afterGrant_weights (count : Nat) (isOne : Bool) :
    (afterGrant count isOne).owning = 0 ∧ (afterGrant count isOne).queued = 0 ∧
    (afterGrant count isOne).signalling = 0 ∧ (afterGrant count isOne).waiting = 0 := by
  rw [afterGrant]
  split <;> exact ⟨rfl, rfl, rfl, rfl⟩

theorem Inv.fixup {extra : Nat} (h : Inv s) (hpc : s.pc t = .fixup extra count isOne) :
    Inv ({ s with mutex := sub s.mutex (c_one * extra % 0x100000000) }.goto t (afterGrant count isOne)) := by
  obtain ⟨howning, hqueued, hsignalling, hwaiting⟩ := afterGrant_weights count isOne
  have hfacts := h.facts_at t
  rw [hpc] at hfacts
  obtain ⟨⟨htoken, hreaders, hfew, hroom⟩, hword, hle, hlock, hcv⟩ := hfacts
  refine h.setMutex (afterGrant_sound _ _ _) ⟨⟨?_, ?_, hfew, ?_⟩, ?_, ?_, hlock, ?_⟩
  all_goals simp only [Pc.owning, Pc.queued, Pc.signalling, Pc.waiting, Counts.word, c_one, c_sig, sub] at *
  all_goals omega

theorem Inv.force (h : Inv s) (hpc : s.pc t = .force count isOne) (hfits : s.mutex % c_sig + c_one * count < c_sig)
    (hfree : s.mutex = 0 → ∀ t', (s.pc t').signalling = 0) :
    Inv ((s.lockForced count).1.goto t (.grant count isOne (s.lockForced count).2)) := by
  have hcount : count ≠ 0 := by
    have hsound := h.sound t
    rwa [hpc] at hsound
  have hfacts := h.facts_at t
  rw [hpc] at hfacts
  have hlt := hfacts.valid.word_lt
  rw [← hfacts.word] at hlt
  have hsig := signalled_iff (v := s.mutex) (by omega)
  by_cases hs : signalled s.mutex
  · rw [lockForced, if_pos hs]
    exact h.setMutex hcount (hfacts.takeSignal hfits hcount (hsig.mp hs))
  have hlow : s.mutex < c_sig := Nat.lt_of_not_le (mt hsig.mpr hs)
  by_cases hzero : s.mutex = 0
  · have hnone : tallyBut Pc.signalling s.pc t = 0 := Finset.sum_eq_zero fun t' _ => hfree hzero t'
    rw [lockForced, if_neg hs, decide_eq_true hzero]
    exact h.setMutex hcount (hfacts.takeFree hfits hcount hzero hnone)
  rw [lockForced, if_neg hs, decide_eq_false hzero]
  exact h.setMutex hcount (hfacts.enqueue hfits hlow)

/-! ## Steps and runs -/

/-- **What keeps the words right**: an operation that adds writers to the word of the mutex finds room
for them, and does not find the mutex free while a release has still to signal; when the mutex was taken
for waiters, one is left; and the wait for the mutex within a wait is not interrupted. -/
def Ok (s : State T) : Label T → Prop
  | .run t answer =>
    (∀ count, (s.pc t).Adds s.mutex count → s.mutex % c_sig + c_one * count < c_sig ∧
      (s.mutex = 0 → ∀ t', (s.pc t').signalling = 0)) ∧
    (∀ count isOne, s.pc t = .grant count isOne true → waiters s.cv ≠ 0) ∧
    (∀ old, s.pc t = .implWait (.sleep old) → answer.interrupted = false)
  | _ => True

/-- The condition is what a call of the mutex needs. -/
theorem Ok.room (pc : LockPc) (hok : s.Ok (.run t answer))
    (hadds : pc.Adds s.mutex → (s.pc t).Adds s.mutex 1) (ha : pc.Adds s.mutex) : Room (s.others t) s.mutex := by
  obtain ⟨hfits, hfree⟩ := hok.1 1 (hadds ha)
  refine ⟨by rwa [mul_one] at hfits, fun hzero => ?_⟩
  exact Finset.sum_eq_zero fun t' _ => hfree hzero t'

theorem Inv.start {allowed : Bool} (h : Inv s) (hstep : s.start t allowed p = some s') (ho : p.owning = 0)
    (hq : p.queued = 0) (hf : p.signalling = 0) (hw : p.waiting = 0) (hsound : allowed → p.Sound (s.hold t)) :
    Inv s' := by
  rw [State.start] at hstep
  split at hstep
  · next hpc =>
    split at hstep
    · next hallowed =>
      cases hstep
      exact h.goto hpc (hsound hallowed) ho hq hf hw
    · cases hstep
  · next result hpc =>
    split at hstep
    · next hallowed =>
      cases hstep
      exact h.goto hpc (hsound hallowed) ho hq hf hw
    · cases hstep
  · cases hstep

theorem advance_inv (hcard : card T < 0x4000) (h : Inv s)
    (hok : s.Ok (.run t answer)) (hstep : s.advance t answer = some s') : Inv s' := by
  have hv := h.others t
  have hsound := h.sound t
  cases hpc : s.pc t <;> simp only [advance, hpc, reduceCtorEq, Option.some.injEq] at hstep <;>
    subst hstep <;> rw [hpc] at hv hsound
  case lock pc =>
    have hroom := Ok.room pc hok fun ha => by rw [hpc]; exact ⟨ha, rfl⟩
    exact h.call hpc (lock_kept hv hroom hsound) (fun _ => ⟨rfl, rfl, rfl, rfl⟩) (fun _ _ hs => hs)
      (lock_locks pc).ne_fail (lock_locks pc).reads (fun _ => trivial) ⟨rfl, rfl, rfl, rfl⟩
  case relock result pc =>
    have hroom := Ok.room pc hok fun ha => by rw [hpc]; exact ⟨ha, rfl⟩
    refine h.call hpc (lock_kept hv hroom hsound) (fun _ => ⟨rfl, rfl, rfl, rfl⟩)
      (fun _ _ hs => hs) (lock_locks pc).ne_fail (lock_locks pc).reads (fun hdone => ?_) ⟨rfl, rfl, rfl, rfl⟩
    rw [(lock_locks pc).done hdone]
    exact Nat.succ_ne_zero _
  case unlock pc =>
    exact h.call hpc (unlock_kept hv hsound) (fun _ => ⟨rfl, rfl, rfl, rfl⟩) (fun _ _ hs => hs)
      (unlock_ne_fail pc) (unlock_reads pc) (fun _ => trivial) ⟨rfl, rfl, rfl, rfl⟩
  case waitUnlock val pc =>
    exact h.call hpc (unlock_kept hv hsound) (fun _ => ⟨rfl, rfl, rfl, rfl⟩) (fun _ _ hs => hs)
      (unlock_ne_fail pc) (unlock_reads pc) (fun _ => trivial) ⟨rfl, rfl, rfl, rfl⟩
  case implWait pc =>
    have hturn : implWait s.mutex answer.interrupted pc = implWait s.mutex false pc := by
      cases pc with
      | check => rfl
      | sleep old => rw [hok.2.2 old hpc]
    rw [hturn]
    refine h.call hpc (implWait_kept hv) (fun _ => ⟨rfl, rfl, rfl, rfl⟩) (fun _ _ _ => trivial)
      (implWait_locks _ pc).ne_fail (implWait_locks _ pc).reads (fun hdone => ?_) ⟨rfl, rfl, rfl, rfl⟩
    rw [(implWait_locks _ pc).done hdone]
    exact Nat.succ_ne_zero _
  case addWaiter => exact h.addWaiter hpc
  case sleep val => exact h.goto hpc trivial rfl rfl rfl rfl
  case cleanup result => exact h.cleanup hcard hpc
  case notify count => split <;> exact h.goto hpc trivial rfl rfl rfl rfl
  case wakeLoad count =>
    rw [wakeLoad]
    split
    · exact h.goto hpc trivial rfl rfl rfl rfl
    · next hne => exact h.goto hpc hne rfl rfl rfl rfl
  case force count isOne =>
    obtain ⟨hfits, hfree⟩ := hok.1 count (by rw [hpc]; rfl)
    exact h.force hpc hfits hfree
  case grant count isOne locked =>
    refine h.grant hcard hpc fun hlocked => ?_
    subst hlocked
    exact hok.2.1 count isOne hpc
  case fixup extra count isOne => exact h.fixup hpc
  case requeue count isOne => split <;> exact h.goto hpc trivial rfl rfl rfl rfl

theorem step_inv {l : Label T} (hcard : card T < 0x4000) (h : Inv s) (hok : s.Ok l)
    (hstep : s.step l = some s') : Inv s' := by
  cases l with
  | lock t | notifyOne t | notifyAll t => exact h.start hstep rfl rfl rfl rfl fun _ => trivial
  | unlock t | wait t => exact h.start hstep rfl rfl rfl rfl of_decide_eq_true
  | run t answer => exact advance_inv hcard h hok hstep

omit [DecidableEq T] in
theorem init_inv : Inv (init : State T) := by
  refine ⟨?_, fun t => trivial, fun t => rfl⟩
  have hreads : tally Hold.reads (fun _ : T => ⟨0, 0⟩) = 0 := tally_eq_zero fun _ => rfl
  have hwrites : tally Hold.writes (fun _ : T => ⟨0, 0⟩) = 0 := tally_eq_zero fun _ => rfl
  have hzero : ∀ weight : Pc → Nat, weight .idle = 0 → tally weight (fun _ : T => .idle) = 0 :=
    fun _ h0 => tally_eq_zero fun _ => h0
  simp only [init, hreads, hwrites, hzero Pc.owning rfl, hzero Pc.queued rfl, hzero Pc.signalling rfl,
    hzero Pc.waiting rfl]
  exact ⟨⟨by decide, nofun, by decide, by decide⟩, rfl, le_refl _, le_refl _, rfl⟩

/-- The writers in the word of the mutex that are there on account of a thread that does not hold it. -/
def units (pc : Pc) : Nat := pc.queued + pc.owning

/-- **`shared_cv` gives the mutex back**: in every run of fewer than 2^14 threads whose steps meet `Ok`,
a wait returns only to a thread that has the mutex, which has it alone; no one aborts or dies; the word
of the condition variable counts the waiters that are not signalled, the granted signals and whether the
mutex was taken for one of them; and the word of the mutex has a writer for each thread that holds it,
waits for it or is about to grant, and for each granted signal. -/
theorem wait_returns_owner (hcard : card T < 0x4000) (ls : List (Label T)) (s : State T) (h : Run step Ok init ls s) :
    (∀ t, (s.hold t).writes ≠ 0 → s.hold t = ⟨0, 1⟩ ∧ ∀ t', t' ≠ t → s.hold t' = ⟨0, 0⟩) ∧
    (∀ t result, s.pc t = .waited result → (s.hold t).writes ≠ 0) ∧ (∀ t, s.pc t ≠ .aborted ∧ s.pc t ≠ .died) ∧
    (s.lockGranted ≤ s.granted ∧ s.granted ≤ tally Pc.waiting s.pc ∧
      s.cv = (tally Pc.waiting s.pc - s.granted) + 0x10000 * s.granted + 0x80000000 * s.lockGranted) ∧
    s.mutex = c_one * (tally Hold.writes s.hold + tally units s.pc + s.granted) + c_sig * s.signals := by
  have hinv : Inv s := h.invariant init_inv fun _ _ _ hs hok hstep => step_inv hcard hs hok hstep
  have hfacts := hinv.facts
  have htoken : tally Hold.writes s.hold + tally Pc.owning s.pc + s.lockGranted +
      tally Pc.signalling s.pc + s.signals ≤ 1 := hfacts.valid.token
  have hsound {t pc} (hpc : s.pc t = pc) : pc.Sound (s.hold t) := hpc ▸ hinv.sound t
  refine ⟨fun t hwrite => ?_, fun _ _ => hsound, fun _ => ⟨hsound, hsound⟩, ⟨hfacts.lock_le, hfacts.granted_le, hfacts.cv⟩, ?_⟩
  · have hsum := tally_eq Hold.writes s.hold t
    refine ⟨Hold.ext (hinv.reads t) ?_, fun t' hne => Hold.ext (hinv.reads t') ?_⟩
    · change (s.hold t).writes = 1
      omega
    have hle := le_tallyBut Hold.writes s.hold hne
    change (s.hold t').writes = 0
    omega
  have hreads : tally Hold.reads s.hold = 0 := tally_eq_zero hinv.reads
  have hunits : tally units s.pc = tally Pc.queued s.pc + tally Pc.owning s.pc :=
    Finset.sum_add_distrib
  have hlock := hfacts.lock_le
  have hword := hfacts.word
  simp only [Counts.word, hreads, add_zero] at hword
  rw [hword, hunits]
  congr 2
  omega

def quiet : Answer := ⟨false, .ok, 0⟩

/-- The first thread waits; the second one notifies it without the mutex, and takes it for the
waiter, which wakes up with it. -/
def notified : List (Label Bool) :=
  [.lock false, .run false quiet, .wait false, .run false quiet, .run false quiet, .notifyOne true,
    .run true quiet, .run true quiet, .run true quiet, .run true quiet, .run false quiet,
    .run false quiet]

theorem wait_returns_owner_notified : ∃ s : State Bool, Run step Ok init notified s ∧ s.pc false = .waited .ok ∧
      s.hold false = ⟨0, 1⟩ ∧ s.hold true = ⟨0, 0⟩ := by
  refine Run.exists_and (.cons trivial rfl
    (.cons ⟨fun _ h => by cases h.2; exact ⟨by decide, fun _ => by decide⟩, nofun, nofun⟩ rfl
    (.cons trivial rfl (.cons ⟨nofun, nofun, nofun⟩ rfl (.cons ⟨nofun, nofun, nofun⟩ rfl (.cons trivial rfl
    (.cons ⟨nofun, nofun, nofun⟩ rfl (.cons ⟨nofun, nofun, nofun⟩ rfl
    (.cons ⟨fun _ h => by cases h; exact ⟨by decide, fun _ => by decide⟩, nofun, nofun⟩ rfl
    (.cons ⟨nofun, fun _ _ _ => by decide, nofun⟩ rfl (.cons ⟨nofun, nofun, nofun⟩ rfl
    (.cons ⟨nofun, nofun, nofun⟩ rfl (.nil _))))))))))))) rfl fun h => ?_
  obtain ⟨halone, howner, -⟩ := wait_returns_owner (by decide) _ _ h
  have hhold := halone false (howner false _ rfl)
  exact ⟨hhold.1, hhold.2 true nofun⟩

local instance neZeroThree : NeZero 3 := ⟨by decide⟩

def outcome (ls : List (Label (Fin 3))) : Option (List Pc × List Nat) :=
  (ls.foldlM step init).map fun s =>
    ([s.pc 0, s.pc 1, s.pc 2], [(s.hold 0).writes, (s.hold 1).writes, (s.hold 2).writes])

def asleep : List (Label (Fin 3)) :=
  [.lock 0, .run 0 quiet, .wait 0, .run 0 quiet, .run 0 quiet]

def aboutToForce (t : Fin 3) : List (Label (Fin 3)) := [.notifyOne t, .run t quiet, .run t quiet]

/-- Two threads notify the one waiter at a time: one takes the mutex for it, and the other one signals
it, so that the first one finds no waiter and aborts. A wait for the mutex is interrupted, and the wait
returns to a thread without it. A waiter leaves while it is about to be signalled: its writer is removed
after a release has seen it, so the release signals no one, and two threads get the mutex. -/
theorem wait_without_owner : (outcome (asleep ++ aboutToForce 1 ++ aboutToForce 2 ++
      [.run 1 quiet, .run 2 quiet, .run 2 quiet, .run 1 quiet])).map Prod.fst =
        some [.sleep 1, .aborted, .requeue 1 true] ∧ outcome (asleep ++ [.lock 1, .run 1 quiet] ++ aboutToForce 1 ++
      [.run 1 quiet, .run 1 quiet, .run 1 ⟨false, .ok, 1⟩, .run 0 quiet, .run 0 quiet, .run 0 quiet,
        .run 0 ⟨true, .ok, 0⟩]) = some ([.waited .interrupted, .idle, .idle], [0, 1, 0]) ∧
    outcome (asleep ++ [.lock 2, .run 2 quiet] ++ aboutToForce 1 ++
      [.run 1 quiet, .run 0 ⟨false, .timedOut, 0⟩, .run 0 quiet, .unlock 2, .run 2 quiet, .run 1 quiet,
        .run 1 quiet, .run 0 quiet, .run 2 quiet, .lock 1, .run 1 quiet, .run 1 quiet]) =
        some ([.waited .timedOut, .idle, .idle], [1, 1, 0]) := by decide +kernel

end State

end Rpcsx.Rx.SharedCV
