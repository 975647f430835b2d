import Mathlib.Data.List.Nodup
import Rpcsx.Lib.Run
import Rpcsx.Orbis.Evf.Basic

/-!
# Runs of an event flag

In every run no thread in the queue is satisfied by the value between two critical sections
(`Unsatisfied`): bits are only added by `set`, which tests every thread, and what a thread consumes
makes no other one satisfied. What a wait returns is right as long as a thread that was matched wakes
up with success, and before the flag is destroyed (`Ok`): the result of the sleep is what it returns.
-/

namespace Rpcsx.Orbis.Evf

open Lib Function List Option WaitingThread

variable {T : Type} [DecidableEq T]

/-! ## Values and tests -/

def Within (a b : Word) : Prop := a &&& b = a

theorem Within.refl (a : Word) : Within a a := BitVec.and_self

theorem Within.trans {a b c : Word} (hab : Within a b) (hbc : Within b c) : Within a c := by
  have h : a &&& b &&& c = a &&& b := by rw [BitVec.and_assoc, hbc]
  rwa [hab] at h

theorem within_and (a b : Word) : Within (a &&& b) a := by
  rw [Within, BitVec.and_comm (a &&& b) a, ← BitVec.and_assoc, BitVec.and_self]

namespace WaitingThread

variable {w : WaitingThread T} {value value' : Word}

omit [DecidableEq T] in
/-- A thread that is not satisfied is not satisfied by fewer bits. -/
theorem test_mono (h : Within value value') (htest : w.test value' = false) : w.test value = false := by
  rw [Within] at h
  unfold test at htest ⊢
  split at htest
  · next hand =>
    rw [if_pos hand]
    rw [decide_eq_false_iff_not] at htest ⊢
    refine fun heq => htest ?_
    calc value' &&& w.bitPattern = value' &&& (value &&& w.bitPattern) := by rw [heq]
      _ = (value &&& value') &&& w.bitPattern := by rw [← BitVec.and_assoc, BitVec.and_comm value' value]
      _ = w.bitPattern := by rw [h, heq]
  · next hand =>
    rw [if_neg hand]
    rw [decide_eq_false_iff_not, not_not] at htest ⊢
    calc value &&& w.bitPattern = value &&& (value' &&& w.bitPattern) := by rw [← BitVec.and_assoc, h]
      _ = 0 := by
        rw [htest]
        exact BitVec.and_zero

omit [DecidableEq T] in
theorem applyClear_within (w : WaitingThread T) (value : Word) : Within (w.applyClear value) value := by
  unfold applyClear
  split
  · exact BitVec.zero_and
  split
  · exact within_and value _
  · exact Within.refl value

end WaitingThread

/-! ## The queue -/

def Unsatisfied (flag : EventFlag T) : Prop :=
  ∀ q ∈ flag.waitingThreads, q.test flag.value = false

/-- What the loop of `notify` does to the queue `ws`, in which no thread is twice: the threads that
stay, the value and the threads' own state. -/
structure Notified (type : NotifyType) (patValue : Word) (threads : T → Thread)
    (ws kept : List (WaitingThread T)) (out : Word) (threads' : T → Thread) : Prop where
  within : Within out patValue
  sublist : kept.Sublist ws
  tested : type = .Set → ∀ w ∈ kept, w.test out = false
  all : type ≠ .Set → kept = []
  frame : ∀ t, (∀ w ∈ ws, w ∉ kept → w.thread ≠ t) → threads' t = threads t
  taken : ∀ w ∈ ws, w ∉ kept → ∃ p, threads' w.thread = { threads w.thread with
    evfResultPattern := p
    evfIsCancelled := if type = .Cancel then 1 else 0
    applied := if type = .Set then (threads w.thread).applied + 1 else (threads w.thread).applied }

theorem notifyLoop_spec (type : NotifyType) (patValue : Word) (threads : T → Thread)
    {ws : List (WaitingThread T)} (hnodup : (ws.map (·.thread)).Nodup) :
    Notified type patValue threads ws (notifyLoop type patValue threads ws).1
      (notifyLoop type patValue threads ws).2.1 (notifyLoop type patValue threads ws).2.2 := by
  induction ws generalizing patValue threads with
  | nil =>
    exact ⟨Within.refl _, List.Sublist.refl _, fun _ => nofun, fun _ => rfl, fun _ _ => rfl, nofun⟩
  | cons w ws ih =>
    rw [map_cons, nodup_cons] at hnodup
    obtain ⟨hw, hnodup⟩ := hnodup
    have hne : ∀ q ∈ ws, q.thread ≠ w.thread := fun q hq heq =>
      hw (List.mem_map.mpr ⟨q, hq, heq⟩)
    rw [notifyLoop]
    by_cases hstay : type = .Set ∧ w.test patValue = false
    · rw [if_pos hstay]
      have hspec := ih patValue threads hnodup
      refine ⟨hspec.within, hspec.sublist.cons_cons w, fun hset q hq => ?_,
        fun hset => absurd hstay.1 hset, fun t ht => ?_, fun q hq hkept => ?_⟩
      · rcases mem_cons.mp hq with rfl | hq
        · exact test_mono hspec.within hstay.2
        · exact hspec.tested hset q hq
      · refine hspec.frame t fun q hq hkept => ht q (mem_cons_of_mem _ hq) fun hmem => ?_
        rcases mem_cons.mp hmem with rfl | hmem
        · exact hne q hq rfl
        · exact hkept hmem
      rw [mem_cons, not_or] at hkept
      exact hspec.taken q ((mem_cons.mp hq).resolve_left hkept.1) hkept.2
    rw [if_neg hstay]
    have hspec := ih (w.applyClear patValue) (update threads w.thread { threads w.thread with
        evfResultPattern := patValue
        evfIsCancelled := if type = .Cancel then 1 else 0
        applied := if type = .Set then (threads w.thread).applied + 1
          else (threads w.thread).applied }) hnodup
    refine ⟨hspec.within.trans (w.applyClear_within patValue), hspec.sublist.cons w, hspec.tested,
      hspec.all, fun t ht => ?_, fun q hq hkept => ?_⟩
    · have hself : w.thread ≠ t := ht w mem_cons_self fun hmem =>
        hne w (hspec.sublist.subset hmem) rfl
      rw [hspec.frame t fun q hq hkept => ht q (mem_cons_of_mem _ hq) hkept, update_of_ne hself.symm]
    rcases mem_cons.mp hq with rfl | hq
    · refine ⟨patValue, ?_⟩
      rw [hspec.frame q.thread fun q' hq' _ => hne q' hq', update_self]
    obtain ⟨p, hp⟩ := hspec.taken q hq hkept
    rw [update_of_ne (hne q hq)] at hp
    exact ⟨p, hp⟩

/-! ## A turn of a wait -/

/-- How a turn of the loop ends. -/
inductive Turn (flag : EventFlag T) (thread : Thread) (me : WaitingThread T)
    (result : Option ErrorCode) : EventFlag T → Thread → Option (Option ErrorCode) → Prop
  /-- The wait fails: the flag is destroyed, or the thread was not matched. -/
  | fails {thread' : Thread} {errc : ErrorCode} :
    thread'.applied = thread.applied → (flag.isDeleted = true ∨ thread.evfIsCancelled ≠ 0) →
    Turn flag thread me result flag thread' (some (some errc))
  /-- A `set` has matched the thread. -/
  | matched : thread.evfIsCancelled = 0 → flag.isDeleted = false →
    Turn flag thread me result flag thread (some result)
  /-- The thread finds what it waits for. -/
  | finds {thread' : Thread} :
    thread'.applied = thread.applied + 1 → me.test flag.value = true →
    thread.evfIsCancelled ≠ 0 → thread.evfIsCancelled ≠ 1 → flag.isDeleted = false →
    Turn flag thread me result { flag with value := me.applyClear flag.value } thread' (some result)
  /-- The thread goes to sleep. -/
  | sleeps {thread' : Thread} :
    thread'.applied = thread.applied → thread'.evfIsCancelled = -1 → me.test flag.value = false →
    thread.evfIsCancelled ≠ 0 → thread.evfIsCancelled ≠ 1 → flag.isDeleted = false →
    Turn flag thread me result { flag with waitingThreads := flag.waitingThreads ++ [me] } thread' none

omit [DecidableEq T] in
theorem waitTurn_turn (flag : EventFlag T) (thread : Thread) (me : WaitingThread T)
    (timeout : Option Nat) (result : Option ErrorCode) :
    Turn flag thread me result (waitTurn flag thread me timeout result).1
      (waitTurn flag thread me timeout result).2.1 (waitTurn flag thread me timeout result).2.2 := by
  unfold waitTurn
  by_cases hdel : flag.isDeleted
  · rw [if_pos hdel]
    refine .fails ?_ (Or.inl hdel)
    split <;> rfl
  rw [if_neg hdel]
  have hdel' : flag.isDeleted = false := by simpa using hdel
  by_cases h1 : thread.evfIsCancelled = 1
  · rw [if_pos h1]
    refine .fails rfl (Or.inr ?_)
    rw [h1]
    decide
  rw [if_neg h1]
  by_cases h0 : thread.evfIsCancelled = 0
  · rw [if_pos h0]
    exact .matched h0 hdel'
  rw [if_neg h0]
  by_cases htest : me.test flag.value
  · rw [if_pos htest]
    exact .finds rfl htest h0 h1 hdel'
  rw [if_neg htest]
  have htest' : me.test flag.value = false := by simpa using htest
  split
  · exact .fails rfl (Or.inr h0)
  split
  · exact .fails rfl (Or.inr h0)
  · exact .sleeps rfl rfl htest' h0 h1 hdel'

/-! ## Invariants -/

def Call.entry (c : Call) (t : T) : WaitingThread T := ⟨t, c.bitPattern, c.waitMode⟩

/-- How a thread sleeps: in the queue, cancelled, or matched by a `set` or a `destroy`. -/
def Sleeps (flag : EventFlag T) (t : T) (thread : Thread) (c : Call) : Prop :=
  (thread.evfIsCancelled = -1 ∧ c.entry t ∈ flag.waitingThreads ∧ thread.applied = 0) ∨
  (thread.evfIsCancelled = 1 ∧ thread.applied = 0) ∨
  (thread.evfIsCancelled = 0 ∧ (thread.applied = 1 ∨ flag.isDeleted = true ∧ thread.applied = 0))

/-- The invariant of all runs, with the exception of the thread `t` if there is one. -/
structure InvBut (but : Option T) (flag : EventFlag T) (threads : T → Thread) : Prop where
  unsatisfied : Unsatisfied flag
  deleted : flag.isDeleted = true → flag.waitingThreads = []
  nodup : (flag.waitingThreads.map (·.thread)).Nodup
  queued : ∀ q ∈ flag.waitingThreads, some q.thread ≠ but ∧
    ∃ c, (threads q.thread).call = some c ∧ q = c.entry q.thread ∧
      (threads q.thread).evfIsCancelled = -1
  sleeps : ∀ t c, some t ≠ but → (threads t).call = some c → Sleeps flag t (threads t) c

def Inv (w : World T) : Prop := InvBut none w.flag w.threads

namespace InvBut

variable {t : T} {but : Option T} {flag : EventFlag T} {threads : T → Thread} {thread : Thread} {call : Call}

omit [DecidableEq T] in
/-- Taking bits off the value satisfies no one. -/
theorem lower {value : Word} (h : InvBut but flag threads) (hvalue : Within value flag.value) :
    InvBut but { flag with value } threads :=
  ⟨fun q hq => test_mono hvalue (h.unsatisfied q hq), h.deleted, h.nodup, h.queued, h.sleeps⟩

theorem queued_update (h : InvBut (some t) flag threads) (thread : Thread) :
    ∀ q ∈ flag.waitingThreads, some q.thread ≠ none ∧
      ∃ c, (update threads t thread q.thread).call = some c ∧ q = c.entry q.thread ∧
        (update threads t thread q.thread).evfIsCancelled = -1 := by
  intro q hq
  obtain ⟨hne, hc⟩ := h.queued q hq
  rw [update_of_ne fun heq => hne (congrArg some heq)]
  exact ⟨nofun, hc⟩

/-- The thread does not sleep. -/
theorem put_awake (h : InvBut (some t) flag threads) (hcall : thread.call = none) :
    InvBut none flag (update threads t thread) := by
  refine ⟨h.unsatisfied, h.deleted, h.nodup, h.queued_update thread, fun t' c _ hc => ?_⟩
  by_cases hself : t' = t
  · subst hself
    rw [update_self, hcall] at hc
    cases hc
  rw [update_of_ne hself] at hc ⊢
  exact h.sleeps t' c (fun heq => hself (some.inj heq)) hc

/-- The thread goes to sleep at the end of the queue. -/
theorem put_asleep (h : InvBut (some t) flag threads) (hcall : thread.call = some call)
    (hdel : flag.isDeleted = false) (htest : (call.entry t).test flag.value = false)
    (hcanc : thread.evfIsCancelled = -1) (happ : thread.applied = 0) :
    InvBut none { flag with waitingThreads := flag.waitingThreads ++ [call.entry t] } (update threads t thread) := by
  have hnot : t ∉ flag.waitingThreads.map (·.thread) := by
    intro hmem
    obtain ⟨q, hq, heq⟩ := List.mem_map.mp hmem
    exact (h.queued q hq).1 (congrArg some heq)
  refine ⟨fun q hq => ?_, fun hd => ?_, ?_, fun q hq => ?_, fun t' c _ hc => ?_⟩
  · rcases mem_append.mp hq with hq | hq
    · exact h.unsatisfied q hq
    rw [mem_singleton.mp hq]
    exact htest
  · exact absurd (hd.symm.trans hdel) (by decide)
  · rw [map_append, map_singleton]
    exact nodup_append.mpr ⟨h.nodup, nodup_singleton _, fun a ha b hb heq =>
      hnot (by rwa [heq, mem_singleton.mp hb] at ha)⟩
  · rcases mem_append.mp hq with hq | hq
    · exact h.queued_update thread q hq
    obtain rfl := mem_singleton.mp hq
    refine ⟨nofun, call, ?_, rfl, ?_⟩
    · exact (congrArg Thread.call (update_self t thread threads)).trans hcall
    · exact (congrArg Thread.evfIsCancelled (update_self t thread threads)).trans hcanc
  by_cases hself : t' = t
  · subst hself
    rw [update_self] at hc ⊢
    cases hcall.symm.trans hc
    exact Or.inl ⟨hcanc, by simp, happ⟩
  rw [update_of_ne hself] at hc ⊢
  exact (h.sleeps t' c (fun heq => hself (some.inj heq)) hc).imp_left fun hq =>
    ⟨hq.1, mem_append_left _ hq.2.1, hq.2.2⟩

theorem settle {w : World T} {result : Option ErrorCode} {flag' : EventFlag T}
    {thread' : Thread} {out : Option (Option ErrorCode)} (h : InvBut (some t) flag w.threads)
    (hturn : Turn flag thread (call.entry t) result flag' thread' out)
    (happlied : thread.evfIsCancelled ≠ 0 → thread.applied = 0) : Inv (settle w t call (flag', thread', out)) := by
  cases hturn with
  | fails _ _ => exact h.put_awake rfl
  | matched _ _ => exact h.put_awake rfl
  | finds _ _ _ _ _ => exact (h.lower (applyClear_within _ _)).put_awake rfl
  | sleeps happ hcanc htest h0 _ hdel =>
    exact h.put_asleep rfl hdel htest hcanc (happ.trans (happlied h0))

end InvBut

/-! ## The steps -/

variable {w : World T}

/-- What `notify` does, in a state of a run. -/
theorem notifyAll_spec (h : Inv w) (type : NotifyType) (bits : Word) :
    ∃ patValue out, Notified type patValue w.threads w.flag.waitingThreads
        (notifyAll w type bits).flag.waitingThreads out (notifyAll w type bits).threads ∧
      (notifyAll w type bits).flag.value = (if type = .Cancel then bits else out) ∧
      (notifyAll w type bits).flag.isDeleted = (if type = .Destroy then true else w.flag.isDeleted) ∧
      (notifyAll w type bits).returned = w.returned :=
  ⟨_, _, notifyLoop_spec type (if type = .Set then w.flag.value ||| bits else w.flag.value) w.threads
    h.nodup, rfl, rfl, rfl⟩

theorem notifyAll_inv (h : Inv w) (type : NotifyType) (bits : Word) : Inv (notifyAll w type bits) := by
  obtain ⟨patValue, out, hspec, hvalue, hdel, -⟩ := notifyAll_spec h type bits
  generalize notifyAll w type bits = w' at *
  have hkept : ∀ q ∈ w'.flag.waitingThreads, w'.threads q.thread = w.threads q.thread := by
    intro q hq
    refine hspec.frame _ fun q' hq' hnot heq => hnot ?_
    -- the two entries are of one thread, so they are one
    have := inj_on_of_nodup_map h.nodup hq' (hspec.sublist.subset hq) heq
    rwa [this]
  refine ⟨fun q hq => ?_, fun hd => ?_, ?_, fun q hq => ?_, fun t c _ hcall => ?_⟩
  · by_cases htype : type = .Set
    · rw [hvalue, htype, if_neg (by decide)]
      exact hspec.tested htype q hq
    rw [hspec.all htype] at hq
    cases hq
  · by_cases htype : type = .Set
    · rw [hdel, htype, if_neg (by decide)] at hd
      exact sublist_nil.mp (h.deleted hd ▸ hspec.sublist)
    exact hspec.all htype
  · exact (hspec.sublist.map _).nodup h.nodup
  · rw [hkept q hq]
    exact h.queued q (hspec.sublist.subset hq)
  by_cases htaken : ∃ q ∈ w.flag.waitingThreads, q ∉ w'.flag.waitingThreads ∧ q.thread = t
  · obtain ⟨q, hq, hnot, rfl⟩ := htaken
    obtain ⟨p, hp⟩ := hspec.taken q hq hnot
    obtain ⟨-, c', hc', hentry, hcanc⟩ := h.queued q hq
    have happ : (w.threads q.thread).applied = 0 := by
      rcases h.sleeps _ c' nofun hc' with hs | hs | hs
      · exact hs.2.2
      · exact hs.2
      rw [hcanc] at hs
      exact absurd hs.1 (by decide)
    rw [hp, Sleeps, hdel]
    cases type with
    | Set => exact Or.inr (Or.inr ⟨rfl, Or.inl (by simp [happ])⟩)
    | Cancel => exact Or.inr (Or.inl ⟨rfl, by simpa using happ⟩)
    | Destroy => exact Or.inr (Or.inr ⟨rfl, Or.inr ⟨rfl, by simpa using happ⟩⟩)
  have hframe : w'.threads t = w.threads t := hspec.frame t fun q hq hnot heq => htaken ⟨q, hq, hnot, heq⟩
  rw [hframe] at hcall ⊢
  rw [Sleeps, hdel]
  rcases h.sleeps t c nofun hcall with hs | hs | hs
  · refine Or.inl ⟨hs.1, ?_, hs.2.2⟩
    by_contra hnot
    exact htaken ⟨_, hs.2.1, hnot, rfl⟩
  · exact Or.inr (Or.inl hs)
  refine Or.inr (Or.inr ⟨hs.1, hs.2.imp_right fun hd => ⟨?_, hd.2⟩⟩)
  rw [hd.1]
  split <;> rfl

variable {t : T}

omit [DecidableEq T] in
/-- A thread that calls a wait is not in the queue. -/
theorem Inv.invBut_idle (h : Inv w) (hcall : (w.threads t).call = none) : InvBut (some t) w.flag w.threads := by
  refine ⟨h.unsatisfied, h.deleted, h.nodup, fun q hq => ?_, fun t' c _ => h.sleeps t' c nofun⟩
  obtain ⟨-, c, hc, hrest⟩ := h.queued q hq
  refine ⟨fun heq => ?_, c, hc, hrest⟩
  rw [some.inj heq, hcall] at hc
  cases hc

def withdrawn (w : World T) (t : T) (c : Call) : EventFlag T :=
  if (w.threads t).evfIsCancelled = -1 then
    { w.flag with waitingThreads := w.flag.waitingThreads.filter (· ≠ c.entry t) }
  else w.flag

theorem Inv.invBut_woken (h : Inv w) {c : Call} (hcall : (w.threads t).call = some c) :
    InvBut (some t) (withdrawn w t c) w.threads := by
  unfold withdrawn
  split
  · next hcanc =>
    refine ⟨fun q hq => h.unsatisfied q (mem_of_mem_filter hq), fun hd => ?_,
      (filter_sublist.map _).nodup h.nodup, fun q hq => ?_, fun t' c' hne hc' => ?_⟩
    · rw [h.deleted hd, filter_nil]
    · obtain ⟨-, c', hc', hentry, hrest⟩ := h.queued q (mem_of_mem_filter hq)
      refine ⟨fun heq => ?_, c', hc', hentry, hrest⟩
      have hne : q ≠ c.entry t := of_decide_eq_true (mem_filter.mp hq).2
      rw [some.inj heq] at hc' hentry
      rw [hcall] at hc'
      cases hc'
      exact hne hentry
    refine (h.sleeps t' c' nofun hc').imp_left fun hs => ⟨hs.1, ?_, hs.2.2⟩
    refine mem_filter.mpr ⟨hs.2.1, decide_eq_true fun heq => hne ?_⟩
    exact congrArg some (congrArg thread heq)
  · next hcanc =>
    refine ⟨h.unsatisfied, h.deleted, h.nodup, fun q hq => ?_, fun t' c' _ => h.sleeps t' c' nofun⟩
    obtain ⟨-, c', hc', hentry, hrest⟩ := h.queued q hq
    refine ⟨fun heq => hcanc ?_, c', hc', hentry, hrest⟩
    rw [← some.inj heq]
    exact hrest

theorem withdrawn_value (w : World T) (t : T) (c : Call) :
    (withdrawn w t c).value = w.flag.value ∧ (withdrawn w t c).isDeleted = w.flag.isDeleted := by
  unfold withdrawn
  split <;> exact ⟨rfl, rfl⟩

omit [DecidableEq T] in
theorem applied_of_unmatched (h : Inv w) {c : Call} (hcall : (w.threads t).call = some c)
    (h0 : (w.threads t).evfIsCancelled ≠ 0) : (w.threads t).applied = 0 := by
  rcases h.sleeps t c nofun hcall with hs | hs | hs
  · exact hs.2.2
  · exact hs.2
  · exact absurd hs.1 h0

/-! ### What each step is -/

variable {w' : World T} {waitMode : BitVec 8} {bitPattern : Word} {l : Label T}

theorem step_wait {timeout : Option Nat}
    (h : step w (.wait t waitMode bitPattern timeout) = some w') : (w.threads t).call = none ∧
      w' = settle w t ⟨waitMode, bitPattern, timeout⟩
        (waitTurn w.flag ⟨0, -1, none, 0⟩ ⟨t, bitPattern, waitMode⟩ timeout none) := by
  rw [step] at h
  cases hcall : (w.threads t).call with
  | some c =>
    rw [hcall] at h
    cases h
  | none =>
    rw [hcall] at h
    exact ⟨rfl, (some.inj h).symm⟩

theorem step_wake {result : CvResult} {elapsed : Nat} (h : step w (.wake t result elapsed) = some w') :
    ∃ c, (w.threads t).call = some c ∧ w' = settle w t c (waitTurn (withdrawn w t c) (w.threads t) (c.entry t)
        (c.fullTimeout.map (· - elapsed)) result.toErrorCode) := by
  rw [step] at h
  cases hcall : (w.threads t).call with
  | none =>
    rw [hcall] at h
    cases h
  | some c =>
    rw [hcall] at h
    exact ⟨c, rfl, (some.inj h).symm⟩

omit [DecidableEq T] in
/-- `tryWait` takes bits off the value, if anything, and leaves the thread awake. -/
theorem tryWait_spec (flag : EventFlag T) (thread : Thread) (me : WaitingThread T) :
    ∃ value, Within value flag.value ∧ (tryWait flag thread me).1 = { flag with value } ∧
      (tryWait flag thread me).2.1.call = thread.call := by
  unfold tryWait
  split
  · exact ⟨flag.value, Within.refl _, rfl, rfl⟩
  split
  · exact ⟨_, me.applyClear_within _, rfl, rfl⟩
  · exact ⟨flag.value, Within.refl _, rfl, rfl⟩

theorem step_tryWait (h : step w (.tryWait t waitMode bitPattern) = some w') :
    (w.threads t).call = none ∧ ∃ value thread, Within value w.flag.value ∧ thread.call = none ∧ w' = { w with
          flag := { w.flag with value }
          threads := update w.threads t thread } := by
  rw [step] at h
  cases hcall : (w.threads t).call with
  | some c =>
    rw [hcall] at h
    cases h
  | none =>
    rw [hcall] at h
    obtain ⟨value, hvalue, hflag, hthread⟩ := tryWait_spec w.flag (w.threads t) ⟨t, bitPattern, waitMode⟩
    refine ⟨rfl, value, _, hvalue, hthread.trans hcall, ?_⟩
    rw [← hflag]
    exact (some.inj h).symm

/-- The invariant of all runs is kept by every step. -/
theorem step_inv (h : Inv w) (hstep : step w l = some w') : Inv w' := by
  cases l with
  | wait t waitMode bitPattern timeout =>
    obtain ⟨hcall, rfl⟩ := step_wait hstep
    exact (h.invBut_idle hcall).settle (waitTurn_turn _ _ _ _ _) fun _ => rfl
  | wake t result elapsed =>
    obtain ⟨c, hcall, rfl⟩ := step_wake hstep
    exact (h.invBut_woken hcall).settle (waitTurn_turn _ _ _ _ _) (applied_of_unmatched h hcall)
  | tryWait t waitMode bitPattern =>
    obtain ⟨hcall, value, thread, hvalue, hawake, rfl⟩ := step_tryWait hstep
    exact ((h.invBut_idle hcall).lower hvalue).put_awake hawake
  | set bits =>
    cases hstep
    exact notifyAll_inv h .Set bits
  | clear bits =>
    cases hstep
    exact h.lower (within_and _ _)
  | cancel value =>
    cases hstep
    exact notifyAll_inv h .Cancel value
  | destroy =>
    cases hstep
    exact notifyAll_inv h .Destroy 0

/-! ## What a wait returns -/

/-- The result tells whether the clear of the wait was applied, once. -/
def Returned.Right (r : Returned T) : Prop :=
  r.result = none ∧ r.applied = 1 ∨ r.result ≠ none ∧ r.applied = 0

/-- A thread that a `set` has matched wakes up with success, and the flag is destroyed only when no
matched thread is still asleep. -/
def Ok (w : World T) : Label T → Prop
  | .wake t result _ =>
    (w.threads t).evfIsCancelled = 0 → w.flag.isDeleted = true ∨ result = .success
  | .destroy => ∀ t, (w.threads t).call.isSome = true → (w.threads t).evfIsCancelled ≠ 0
  | _ => True

/-- The invariant of the runs that meet the condition. -/
structure Strict (w : World T) : Prop where
  inv : Inv w
  destroyed : ∀ t c, (w.threads t).call = some c → (w.threads t).evfIsCancelled = 0 →
    w.flag.isDeleted = true → (w.threads t).applied = 0
  returned : ∀ r ∈ w.returned, r.Right

/-- The wait of one thread goes on or ends; the others are as before. -/
theorem Strict.settle (h : Strict w) {flag : EventFlag T} {thread : Thread} {call : Call} {result : Option ErrorCode}
    {flag' : EventFlag T} {thread' : Thread} {out : Option (Option ErrorCode)}
    (hturn : Turn flag thread (call.entry t) result flag' thread' out)
    (hinv : Inv (settle w t call (flag', thread', out))) (hdel : flag.isDeleted = w.flag.isDeleted)
    (hunmatched : thread.evfIsCancelled ≠ 0 → thread.applied = 0)
    (hmatched : thread.evfIsCancelled = 0 →
      if flag.isDeleted = true then thread.applied = 0 else thread.applied = 1 ∧ result = none)
    (hfinds : thread.evfIsCancelled ≠ 0 → thread.evfIsCancelled ≠ 1 →
      (call.entry t).test flag.value → result = none) : Strict (Evf.settle w t call (flag', thread', out)) := by
  have hothers : ∀ (th : Thread) t' c, t' ≠ t → (update w.threads t th t').call = some c →
      (update w.threads t th t').evfIsCancelled = 0 → w.flag.isDeleted →
      (update w.threads t th t').applied = 0 := by
    intro th t' c hne hc
    rw [update_of_ne hne] at hc ⊢
    exact h.destroyed t' c hc
  refine ⟨hinv, fun t' c hc => ?_, ?_⟩
  · cases hturn with
    | fails _ _ | matched _ _ | finds _ _ _ _ _ =>
      by_cases hself : t' = t
      · subst hself
        simp only [Evf.settle, update_self] at hc
        cases hc
      intro h0 hd
      exact hothers _ t' c hself hc h0 (hdel ▸ hd)
    | sleeps _ hcanc _ _ _ hd' =>
      intro _ hd
      exact absurd (hd'.symm.trans hd) (by decide)
  · cases hturn with
    | fails happ hwhy =>
      intro r hr
      rcases mem_cons.mp hr with rfl | hr
      · refine Or.inr ⟨nofun, happ.trans ?_⟩
        by_cases h0 : thread.evfIsCancelled = 0
        · have := hmatched h0
          rwa [if_pos (hwhy.resolve_right fun hne => hne h0)] at this
        exact hunmatched h0
      exact h.returned r hr
    | matched h0 hnot =>
      have hright := hmatched h0
      rw [hnot, if_neg (by decide)] at hright
      intro r hr
      rcases mem_cons.mp hr with rfl | hr
      · exact Or.inl ⟨hright.2, hright.1⟩
      · exact h.returned r hr
    | finds happ htest h0 h1 _ =>
      intro r hr
      rcases mem_cons.mp hr with rfl | hr
      · exact Or.inl ⟨hfinds h0 h1 htest, by rw [happ, hunmatched h0]⟩
      · exact h.returned r hr
    | sleeps _ _ _ _ _ _ => exact h.returned

/-- A `set` or a `cancel` destroys nothing, and a `destroy` finds no thread that was matched. -/
theorem Strict.notifyAll (h : Strict w) {type : NotifyType} (bits : Word)
    (hdestroy : type = .Destroy → ∀ t, (w.threads t).call.isSome → (w.threads t).evfIsCancelled ≠ 0) :
    Strict (notifyAll w type bits) := by
  have hinv := notifyAll_inv h.inv type bits
  obtain ⟨patValue, out, hspec, -, hdel, hret⟩ := notifyAll_spec h.inv type bits
  generalize Evf.notifyAll w type bits = w' at *
  refine ⟨hinv, fun t c hc h0 hd => ?_, hret ▸ h.returned⟩
  by_cases htaken : ∃ q ∈ w.flag.waitingThreads, q ∉ w'.flag.waitingThreads ∧ q.thread = t
  · obtain ⟨q, hq, hnot, rfl⟩ := htaken
    obtain ⟨p, hp⟩ := hspec.taken q hq hnot
    obtain ⟨-, c', hc', -, hcanc⟩ := h.inv.queued q hq
    have happ : (w.threads q.thread).applied = 0 := applied_of_unmatched h.inv hc' (by rw [hcanc]; decide)
    have hset : type ≠ .Set := by
      rintro rfl
      rw [if_neg (by decide)] at hdel
      rw [h.inv.deleted (hdel ▸ hd)] at hq
      cases hq
    rw [hp, if_neg hset]
    exact happ
  have hframe : w'.threads t = w.threads t := hspec.frame t fun q hq hnot heq => htaken ⟨q, hq, hnot, heq⟩
  rw [hframe] at hc h0 ⊢
  by_cases htype : type = .Destroy
  · exact absurd h0 (hdestroy htype t (by rw [hc]; rfl))
  rw [if_neg htype] at hdel
  exact h.destroyed t c hc h0 (hdel ▸ hd)

theorem step_strict (h : Strict w) (hok : Ok w l) (hstep : step w l = some w') : Strict w' := by
  have hinv := step_inv h.inv hstep
  cases l with
  | wait t waitMode bitPattern timeout =>
    obtain ⟨hcall, rfl⟩ := step_wait hstep
    exact h.settle (waitTurn_turn _ _ _ _ _) hinv rfl (fun _ => rfl) (fun h0 => absurd h0 (by decide)) fun _ _ _ => rfl
  | wake t result elapsed =>
    obtain ⟨c, hcall, rfl⟩ := step_wake hstep
    obtain ⟨hvalue, hdel⟩ := withdrawn_value w t c
    refine h.settle (waitTurn_turn _ _ _ _ _) hinv hdel (applied_of_unmatched h.inv hcall)
      (fun h0 => ?_) fun h0 h1 htest => ?_
    · rw [hdel]
      split
      · next hd => exact h.destroyed t c hcall h0 hd
      · next hd =>
        refine ⟨?_, by rw [(hok h0).resolve_left hd]; rfl⟩
        rcases h.inv.sleeps t c nofun hcall with hs | hs | hs
        · rw [h0] at hs
          exact absurd hs.1 (by decide)
        · rw [h0] at hs
          exact absurd hs.1 (by decide)
        exact hs.2.resolve_right fun hd' => hd hd'.1
    -- the thread was in the queue, so the value does not satisfy it
    rcases h.inv.sleeps t c nofun hcall with hs | hs | hs
    · rw [hvalue, h.inv.unsatisfied _ hs.2.1] at htest
      cases htest
    · exact absurd hs.1 h1
    exact absurd hs.1 h0
  | tryWait t waitMode bitPattern =>
    obtain ⟨hcall, value, thread, hvalue, hawake, rfl⟩ := step_tryWait hstep
    refine ⟨hinv, fun t' c hc => ?_, h.returned⟩
    by_cases hself : t' = t
    · subst hself
      simp only [update_self] at hc
      cases hawake.symm.trans hc
    simp only [update_of_ne hself] at hc ⊢
    exact h.destroyed t' c hc
  | set bits =>
    cases hstep
    exact h.notifyAll bits nofun
  | clear bits =>
    cases hstep
    exact ⟨hinv, h.destroyed, h.returned⟩
  | cancel value =>
    cases hstep
    exact h.notifyAll value nofun
  | destroy =>
    cases hstep
    exact h.notifyAll 0 fun _ => hok

omit [DecidableEq T] in
theorem init_strict (attrs : BitVec 8) (initPattern : Word) : Strict (init attrs initPattern : World T) :=
  ⟨⟨nofun, fun _ => rfl, nodup_nil, nofun, nofun⟩, nofun, nofun⟩

/-- **Event flags**: between two critical sections of any run no thread in the queue is satisfied by
the value. In every run in which a thread that was matched wakes up with success, and no flag is
destroyed while one is still asleep, a wait returns success exactly when its clear was applied to the
value, which happens at most once. -/
theorem run_wakes_and_returns (attrs : BitVec 8) (initPattern : Word) (ls : List (Label T)) (w : World T) :
    (Run step (fun _ _ => True) (init attrs initPattern) ls w → Unsatisfied w.flag) ∧
    (Run step Ok (init attrs initPattern) ls w →
      ∀ r ∈ w.returned, (r.result = none ↔ r.applied = 1) ∧ r.applied ≤ 1) := by
  refine ⟨fun h => ?_, fun h r hr => ?_⟩
  · have hinv : Inv w := h.invariant (init_strict attrs initPattern).inv fun _ _ _ hw _ hstep => step_inv hw hstep
    exact hinv.unsatisfied
  have hstrict : Strict w := h.invariant (init_strict attrs initPattern)
    fun _ _ _ hw hok hstep => step_strict hw hok hstep
  rcases hstrict.returned r hr with ⟨hres, happ⟩ | ⟨hres, happ⟩
  · exact ⟨⟨fun _ => happ, fun _ => hres⟩, by omega⟩
  · exact ⟨⟨fun h => absurd h hres, fun h => by omega⟩, by omega⟩

/-- A thread waits for bit 0 with a timeout, to clear it, and the bit is set. -/
def waitThenSet : List (Label Unit) := [.wait () 0x12 1 (some 100), .set 1]

theorem run_wakes_and_returns_matched : ∃ w, Run step Ok (init 0x21 0) (waitThenSet ++ [.wake () .success 5]) w ∧
      w.returned = [⟨(), none, 1⟩] ∧ ∀ r ∈ w.returned, (r.result = none ↔ r.applied = 1) ∧ r.applied ≤ 1 :=
  Run.exists_and (.cons trivial rfl (.cons trivial rfl (.cons (fun _ => Or.inr rfl) rfl (.nil _)))) (by decide)
    (run_wakes_and_returns 0x21 0 _ _).2

def outcome (ls : List (Label Unit)) : Option (Word × List (Returned Unit)) :=
  (ls.foldlM step (init 0x21 0)).map fun w => (w.flag.value, w.returned)

/-- The bit is consumed on behalf of the thread, which then reports that its time is up, or that the
flag is gone. -/
theorem matched_wait_fails : outcome (waitThenSet ++ [.wake () .timeout 100]) = some (0, [⟨(), some .TIMEDOUT, 1⟩]) ∧
    outcome (waitThenSet ++ [.destroy, .wake () .success 5]) = some (0, [⟨(), some .ACCES, 1⟩]) := by decide +kernel

end Rpcsx.Orbis.Evf
