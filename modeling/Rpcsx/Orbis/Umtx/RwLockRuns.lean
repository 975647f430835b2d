import Rpcsx.Lib.Run
import Rpcsx.Lib.Tally
import Rpcsx.Orbis.Umtx.RwLock

/-!
# Runs of a user-space read-write lock

In every run the word tells who has the lock: its readers are the holds of all threads together, its
owner bit is set while one thread has it for writing, and then no one reads. The counters of blocked
threads are the numbers of threads that wait. A `wrlock` reports success when an exchange of its own
fails: after one that took the lock, or, if the word has changed since it was read, without the lock.
`rdlock` never reports how its wait has ended. In clean runs neither is seen, and no `wrlock` gets the
lock after a wait that failed: then every call reports what has happened.
-/

namespace Rpcsx.Orbis.Umtx.RwLock

open Lib Function Option

def Pc.rdBlocked : Pc → Nat
  | .rdSleep _ _ _ | .rdReload _ => 1
  | _ => 0

def Pc.wrBlocked : Pc → Nat
  | .wrSleep _ _ | .wrReload _ => 1
  | _ => 0

/-- The call that a thread is in. -/
def Pc.kind : Pc → Option Kind
  | .done => none
  | .unEnter | .unLoad | .unWrite _ | .unRead _ => some .unlock
  | .wrEnter _ | .wrLoad _ | .wrTry _ _ _ | .wrLoadAgain _ | .wrMark _ _ | .wrSleep _ _ | .wrReload _
  | .wrClearLoad _ | .wrClear _ _ => some .wrlock
  | _ => some .rdlock

namespace State

variable {T : Type}

/-- What a thread knows at each place, in a run that is clean or not. -/
def AtPc (clean : Prop) (s : State T) (t : T) : Pc → Prop
  | .rdTry _ state => state.writeOwner = false ∧ (clean → s.waitError t = none)
  | .rdEnter _ | .rdLoad _ | .rdMark _ _ | .rdSleep _ _ _ | .rdReload _ | .rdClear _ _ => clean → s.waitError t = none
  | .wrEnter c | .wrLoad c | .wrClearLoad c | .wrClear c _ => c.error = s.waitError t
  | .wrLoadAgain c | .wrMark c _ | .wrSleep c _ | .wrReload c => c.error = none ∧ s.waitError t = none
  | .wrTry _ state _ => state.free = true ∧ (clean → s.waitError t = none)
  | .unEnter | .unLoad => s.reads t ≠ 0 ∨ s.writes t = true
  | .unWrite _ => s.writes t = true
  | .unRead _ => s.reads t ≠ 0
  | .done => True

/-- A call that succeeded has taken the lock, and one whose wait has failed reports that. -/
def Exact (r : Returned T) : Prop :=
  r.kind ≠ .unlock → (r.result = none → r.took = true) ∧ (r.waitError ≠ none → r.result = r.waitError)

/-- Nothing happens that the calls do not report: a `wrlock` that tries to take the lock finds the word as it
has read it, one whose wait has failed does not find the lock free, and no wait of a `rdlock` fails. -/
def Clean (s : State T) : Label T → Prop
  | .run t _ => (∀ c state, s.pc t = .wrTry c state false → s.word = state) ∧
    ∀ c, s.pc t = .wrLoad c → c.error ≠ none → s.word.free = false
  | .wake t result timeUp => ∀ c state node, s.pc t = .rdSleep c state node → s.chain.thr node = some t →
    (c.timed = true → timeUp = false) ∧ result = none
  | _ => True

section

variable {clean : Prop} {s s' s'' : State T} {t : T} {p : Pc} {allowed : Bool} {word : Word}

theorem atPc_congr (hreads : s'.reads t = s.reads t) (hwrites : s'.writes t = s.writes t)
    (herr : s'.waitError t = s.waitError t) (h : s.AtPc clean t p) : s'.AtPc clean t p := by
  cases p <;> simp only [AtPc, hreads, hwrites, herr] at h ⊢ <;> exact h

/-- A step of the thread `t` leaves the others and the counters alone. -/
structure Frame (s s' : State T) (t : T) : Prop where
  reads : ∀ t', t' ≠ t → s'.reads t' = s.reads t'
  writes : ∀ t', t' ≠ t → s'.writes t' = s.writes t'
  waitError : ∀ t', t' ≠ t → s'.waitError t' = s.waitError t'
  blockedReaders : s'.blockedReaders = s.blockedReaders
  blockedWriters : s'.blockedWriters = s.blockedWriters

theorem Frame.atPc {t' : T} (h : Frame s s' t) (hne : t' ≠ t) (hat : s.AtPc clean t' p) : s'.AtPc clean t' p :=
  atPc_congr (h.reads t' hne) (h.writes t' hne) (h.waitError t' hne) hat

theorem guest_eq_some (h : s.guest t allowed s' = some s'') : s.pc t = .done ∧ allowed ∧ s'' = s' := by
  rw [guest] at h
  split at h
  · next hpc =>
    split at h
    · next hallowed =>
      cases h
      exact ⟨hpc, hallowed, rfl⟩
    · cases h
  · cases h

variable [DecidableEq T]

theorem frame_reads {n : Nat} : Frame s { s with word, reads := update s.reads t n } t :=
  ⟨fun _ hne => update_of_ne hne _ _, fun _ _ => rfl, fun _ _ => rfl, rfl, rfl⟩

theorem frame_writes {b : Bool} : Frame s { s with word, writes := update s.writes t b } t :=
  ⟨fun _ _ => rfl, fun _ hne => update_of_ne hne _ _, fun _ _ => rfl, rfl, rfl⟩

theorem start_eq_some (h : s.start t p = some s') :
    s.pc t = .done ∧ s' = { s.goto t p with waitError := update s.waitError t none } := by
  rw [start] at h
  split at h
  · next hpc =>
    cases h
    exact ⟨hpc, rfl⟩
  · cases h

/-- A wait of a `rdlock` ends without an error in a clean run. -/
theorem waitResult_eq {node : Nat} {timed timeUp : Bool} {result error : Option ErrorCode}
    (hwait : s.waitResult t node timed result timeUp = some error)
    (hclean : s.chain.thr node = some t → (timed = true → timeUp = false) ∧ result = none) : error = none := by
  unfold waitResult at hwait
  split at hwait
  · exact (some.inj hwait).symm
  next hnode =>
  obtain ⟨htime, rfl⟩ := hclean (not_ne_iff.mp hnode)
  rw [if_neg fun hup => by rw [htime hup.1] at hup; exact Bool.false_ne_true hup.2, if_neg (fun hne => hne rfl)] at hwait
  cases hwait

end

variable [Fintype T] [DecidableEq T]

structure Held (s : State T) : Prop where
  readers : tally id s.reads = s.word.readers
  owner : s.word.writeOwner = true ↔ ∃ t, s.writes t = true
  single : ∀ t t', s.writes t = true → s.writes t' = true → t = t'
  exclusive : s.word.writeOwner = true → s.word.readers = 0

namespace Held

omit [DecidableEq T] in
theorem congr {s s' : State T} (h : Held s) (hreads : s'.reads = s.reads) (hwrites : s'.writes = s.writes)
    (howner : s'.word.writeOwner = s.word.writeOwner) (hreaders : s'.word.readers = s.word.readers) : Held s' := by
  refine ⟨?_, ?_, ?_, ?_⟩
  · rw [hreads, hreaders, h.readers]
  · rw [howner, hwrites, h.owner]
  · rw [hwrites]
    exact h.single
  rw [howner, hreaders]
  exact h.exclusive

end Held

structure Inv (clean : Prop) (s : State T) : Prop where
  held : Held s
  inside : ∀ t, (s.pc t).inside = true ↔ s.holder = some t
  atPc : ∀ t, s.AtPc clean t (s.pc t)
  blockedReaders : s.blockedReaders = tally Pc.rdBlocked s.pc % 0x100000000
  blockedWriters : s.blockedWriters = tally Pc.wrBlocked s.pc % 0x100000000
  returned : clean → ∀ r ∈ s.returned, Exact r

/-- The invariant while a thread is on its way to its next place; it has added `nr` and `nw` to the
counters of blocked threads. -/
structure Core (clean : Prop) (s : State T) (t : T) (nr nw : Nat) : Prop where
  held : Held s
  outside : ∀ t', t' ≠ t → (s.pc t').inside = false
  atPc : ∀ t', t' ≠ t → s.AtPc clean t' (s.pc t')
  blockedReaders : s.blockedReaders = (tallyBut Pc.rdBlocked s.pc t + nr) % 0x100000000
  blockedWriters : s.blockedWriters = (tallyBut Pc.wrBlocked s.pc t + nw) % 0x100000000
  returned : clean → ∀ r ∈ s.returned, Exact r

variable {clean : Prop} {s s' s'' : State T} {t : T} {p : Pc} {nr nw : Nat} {allowed : Bool}

/-- A thread with the chain's mutex, or one that takes it, begins a step. -/
theorem Inv.core (h : Inv clean s) (ht : s.holder = some t ∨ s.holder = none) :
    Core clean s t (s.pc t).rdBlocked (s.pc t).wrBlocked := by
  refine ⟨h.held, fun t' hne => ?_, fun t' _ => h.atPc t', ?_, ?_, h.returned⟩
  · rw [Bool.eq_false_iff]
    intro hin
    rcases ht with ht | ht <;> rw [(h.inside t').mp hin] at ht
    · exact hne (some.inj ht)
    · cases ht
  · rw [h.blockedReaders, tally_eq _ _ t]
  rw [h.blockedWriters, tally_eq _ _ t]

theorem inc_add (n : Nat) : inc ((n + 0) % 0x100000000) = (n + 1) % 0x100000000 := by
  rw [inc]
  omega

theorem dec_add (n : Nat) : dec ((n + 1) % 0x100000000) = (n + 0) % 0x100000000 := by
  rw [dec]
  omega

namespace Core

section

variable (h : Core clean s t nr nw)

include h

/-- The step ends: the thread is at its next place. -/
theorem settle (hpc : s'.pc = update s.pc t p)
    (hholder : s'.holder = if p.inside then some t else none) (hheld : Held s') (hframe : Frame s s' t)
    (hat : s'.AtPc clean t p) (hr : p.rdBlocked = nr) (hw : p.wrBlocked = nw)
    (hret : clean → ∀ r ∈ s'.returned, Exact r) : Inv clean s' := by
  refine ⟨hheld, fun t' => ?_, fun t' => ?_, ?_, ?_, hret⟩
  · rw [hpc, hholder]
    by_cases hself : t' = t
    · subst hself
      rw [update_self]
      cases p.inside <;> simp
    rw [update_of_ne hself, h.outside t' hself]
    cases p.inside <;> simp [Ne.symm hself]
  · rw [hpc]
    by_cases hself : t' = t
    · subst hself
      rwa [update_self]
    rw [update_of_ne hself]
    exact hframe.atPc hself (h.atPc t' hself)
  · rw [hframe.blockedReaders, h.blockedReaders, hpc, tally_update, hr]
  rw [hframe.blockedWriters, h.blockedWriters, hpc, tally_update, hw]

theorem goto (ht : s.holder = some t) (hin : p.inside)
    (hat : s.AtPc clean t p) (hr : p.rdBlocked = nr) (hw : p.wrBlocked = nw) : Inv clean (s.goto t p) :=
  h.settle rfl (by rw [if_pos hin]; exact ht) (h.held.congr rfl rfl rfl rfl)
    ⟨fun _ _ => rfl, fun _ _ => rfl, fun _ _ => rfl, rfl, rfl⟩ hat hr hw h.returned

omit h in
theorem leave {kind : Kind} {result : Option ErrorCode} {took : Bool} (h : Core clean s t 0 0)
    (hret : clean → Exact ⟨t, kind, result, took, s.waitError t⟩) : Inv clean (s.leave t kind result took) := by
  refine h.settle (p := .done) rfl rfl (h.held.congr rfl rfl rfl rfl)
    ⟨fun _ _ => rfl, fun _ _ => rfl, fun _ _ => rfl, rfl, rfl⟩ trivial rfl rfl fun hclean r hr => ?_
  rcases List.mem_cons.mp hr with rfl | hr
  · exact hret hclean
  · exact h.returned hclean r hr

theorem sleep {place : Nat → Pc} (hout : ∀ n, (place n).inside = false)
    (hat : ∀ n, s.AtPc clean t (place n)) (hr : ∀ n, (place n).rdBlocked = nr)
    (hw : ∀ n, (place n).wrBlocked = nw) : Inv clean (s.sleep t place) := by
  refine h.settle (p := place (s.chain.enqueue () t).2) rfl ?_
    (h.held.congr rfl rfl rfl rfl) ⟨fun _ _ => rfl, fun _ _ => rfl, fun _ _ => rfl, rfl, rfl⟩
    (atPc_congr rfl rfl rfl (hat _)) (hr _) (hw _) h.returned
  rw [hout]
  rfl

/-- Changes of the bits that tell of waiters, and of the chain. -/
theorem setWord {word : Word} (howner : word.writeOwner = s.word.writeOwner)
    (hreaders : word.readers = s.word.readers) : Core clean { s with word } t nr nw :=
  ⟨h.held.congr rfl rfl howner hreaders, h.outside, h.atPc, h.blockedReaders, h.blockedWriters, h.returned⟩

theorem setChain {chain : UmtxChain Unit T} : Core clean { s with chain } t nr nw :=
  ⟨h.held.congr rfl rfl rfl rfl, h.outside, h.atPc, h.blockedReaders, h.blockedWriters, h.returned⟩

/-- Changes of the counters. -/
theorem setBlocked {blockedReaders blockedWriters nr' nw' : Nat}
    (hr : blockedReaders = (tallyBut Pc.rdBlocked s.pc t + nr') % 0x100000000)
    (hw : blockedWriters = (tallyBut Pc.wrBlocked s.pc t + nw') % 0x100000000) :
    Core clean { s with blockedReaders, blockedWriters } t nr' nw' :=
  ⟨h.held.congr rfl rfl rfl rfl, h.outside, fun t' hne => atPc_congr rfl rfl rfl (h.atPc t' hne), hr, hw, h.returned⟩

end

theorem incReaders (h : Core clean s t 0 nw) : Core clean { s with blockedReaders := inc s.blockedReaders } t 1 nw :=
  h.setBlocked (by rw [h.blockedReaders, inc_add]) h.blockedWriters

theorem decReaders (h : Core clean s t 1 nw) : Core clean { s with blockedReaders := dec s.blockedReaders } t 0 nw :=
  h.setBlocked (by rw [h.blockedReaders, dec_add]) h.blockedWriters

theorem incWriters (h : Core clean s t nr 0) : Core clean { s with blockedWriters := inc s.blockedWriters } t nr 1 :=
  h.setBlocked h.blockedReaders (by rw [h.blockedWriters, inc_add])

theorem decWriters (h : Core clean s t nr 1) : Core clean { s with blockedWriters := dec s.blockedWriters } t nr 0 :=
  h.setBlocked h.blockedReaders (by rw [h.blockedWriters, dec_add])

end Core

/-! ## Taking and dropping the lock -/

namespace Held

variable (h : Held s)

include h

theorem takeRead (hfree : s.word.writeOwner = false) : Held (s.takeRead t) := by
  refine ⟨?_, h.owner, h.single, fun ho => absurd (hfree.symm.trans ho) (by decide)⟩
  have hsum := h.readers
  rw [tally_eq _ _ t] at hsum
  simp only [State.takeRead, tally_update, id] at hsum ⊢
  omega

omit [DecidableEq T] in
theorem no_writer (hfree : s.word.writeOwner = false) (t : T) : s.writes t = false := by
  rw [Bool.eq_false_iff]
  intro hw
  rw [h.owner.mpr ⟨t, hw⟩] at hfree
  cases hfree

theorem takeWrite (hfree : s.word.free) : Held (s.takeWrite t) := by
  simp only [Word.free, Bool.and_eq_true, Bool.not_eq_true', decide_eq_true_eq] at hfree
  have hno := h.no_writer hfree.1
  refine ⟨h.readers, ⟨fun _ => ⟨t, update_self _ _ _⟩, fun _ => rfl⟩, fun t1 t2 h1 h2 => ?_, fun _ => hfree.2⟩
  have hself : ∀ t', (s.takeWrite t).writes t' → t' = t := by
    intro t' hw
    by_contra hne
    change update s.writes t true t' = true at hw
    rw [update_of_ne hne, hno] at hw
    cases hw
  rw [hself t1 h1, hself t2 h2]

theorem dropRead (hread : s.reads t ≠ 0) : Held (s.dropRead t) := by
  have hsum := h.readers
  rw [tally_eq _ _ t] at hsum
  refine ⟨?_, h.owner, h.single, fun ho => ?_⟩
  · simp only [State.dropRead, tally_update, id] at hsum ⊢
    omega
  have := h.exclusive ho
  simp only [State.dropRead]
  omega

theorem dropWrite (hwrite : s.writes t) : Held (s.dropWrite t) := by
  have hno : ∀ t', (s.dropWrite t).writes t' = false := by
    intro t'
    by_cases hself : t' = t
    · subst hself
      exact update_self _ _ _
    change update s.writes t false t' = false
    rw [update_of_ne hself, Bool.eq_false_iff]
    exact fun hw => hself (h.single _ _ hw hwrite)
  refine ⟨h.readers, ⟨nofun, fun ⟨t', hw⟩ => ?_⟩, fun t1 t2 h1 => ?_, nofun⟩
  · rw [hno] at hw
    cases hw
  rw [hno] at h1
  cases h1

theorem readers_ne_zero (hread : s.reads t ≠ 0) : s.word.readers ≠ 0 := by
  have hle := le_tally id s.reads t
  rw [h.readers] at hle
  exact fun hzero => hread (Nat.le_zero.mp (hzero ▸ hle))

/-- A thread that reads keeps writers out. -/
theorem reader_excludes (hread : s.reads t ≠ 0) : s.word.writeOwner = false := by
  rw [Bool.eq_false_iff]
  exact fun ho => h.readers_ne_zero hread (h.exclusive ho)

end Held

/-! ## The calls -/

namespace Core

variable {c : RdCall} {w : WrCall} {state : Word}

section

variable (h : Core clean s t 0 0) (ht : s.holder = some t)

include h ht

theorem rdBlock (he : clean → s.waitError t = none) : Inv clean (s.rdBlock t c state) := by
  rw [State.rdBlock]
  split
  · exact h.incReaders.sleep (fun _ => rfl) (fun _ => he) (fun _ => rfl) (fun _ => rfl)
  · exact h.goto ht rfl he rfl rfl

theorem rdSecond (he : clean → s.waitError t = none) : Inv clean (s.rdSecond t c state) := by
  rw [State.rdSecond]
  split
  · exact h.goto ht rfl he rfl rfl
  · exact h.rdBlock ht he

omit h ht in
theorem writeOwner_of_wrflags {flags : Flags} (h : ¬ wrflags flags c state) : state.writeOwner = false := by
  rw [wrflags, Bool.or_eq_true, not_or] at h
  exact Bool.eq_false_iff.mpr h.1

theorem rdFirst (he : clean → s.waitError t = none) : Inv clean (s.rdFirst t c state) := by
  rw [State.rdFirst]
  split
  · exact h.rdSecond ht he
  · next hno =>
    split
    · exact h.leave fun hclean _ => ⟨nofun, absurd (he hclean)⟩
    · exact h.goto ht rfl ⟨writeOwner_of_wrflags hno, he⟩ rfl rfl

omit h in
theorem rdUnblock (h : Core clean s t 1 0) (he : clean → s.waitError t = none) : Inv clean (s.rdUnblock t c state) := by
  rw [State.rdUnblock]
  split
  · exact h.decReaders.goto ht rfl he rfl rfl
  · exact h.decReaders.goto ht rfl he rfl rfl

theorem wrBlock (hw : w.error = none)
    (he : s.waitError t = none) : Inv clean (s.wrBlock t w state) := by
  rw [State.wrBlock]
  split
  · exact h.goto ht rfl (hw.trans he.symm) rfl rfl
  · exact h.incWriters.sleep (fun _ => rfl) (fun _ => ⟨hw, he⟩) (fun _ => rfl) (fun _ => rfl)

theorem wrSecond (hw : w.error = none)
    (he : s.waitError t = none) : Inv clean (s.wrSecond t w state) := by
  rw [State.wrSecond]
  split
  · exact h.goto ht rfl ⟨hw, he⟩ rfl rfl
  · exact h.wrBlock ht hw he

theorem wrFirst (he : w.error = s.waitError t) (hclean : clean → w.error ≠ none → state.free = false) :
    Inv clean (s.wrFirst t w state) := by
  rw [State.wrFirst]
  split
  · next hfree =>
    refine h.goto ht rfl ⟨hfree, fun hc => he ▸ not_ne_iff.mp fun herr => ?_⟩ rfl rfl
    exact Bool.false_ne_true ((hclean hc herr).symm.trans hfree)
  split
  · next herr => exact h.setChain.leave fun _ _ => ⟨fun hnone => absurd hnone herr, fun _ => he⟩
  · next herr =>
    have hnone : w.error = none := not_ne_iff.mp herr
    exact h.goto ht rfl ⟨hnone, he.symm.trans hnone⟩ rfl rfl

omit h in
theorem wrUnblock (h : Core clean s t 0 1) (he : w.error = s.waitError t) :
    Inv clean (s.wrUnblock t w) := by
  rw [State.wrUnblock]
  split
  · exact h.decWriters.goto ht rfl he rfl rfl
  · exact h.decWriters.goto ht rfl he rfl rfl

omit ht in
theorem unNotify : Inv clean (s.unNotify t state) := h.setChain.leave fun _ hkind => absurd rfl hkind

end

section

variable (h : Core clean s t nr nw)

include h

/-- The holds of one thread change. -/
theorem setHolds (hheld : Held s') (hframe : Frame s s' t) (hpc : s'.pc = s.pc) (hret : s'.returned = s.returned) :
    Core clean s' t nr nw := by
  refine ⟨hheld, ?_, fun t' hne => ?_, ?_, ?_, ?_⟩
  · rw [hpc]
    exact h.outside
  · rw [hpc]
    exact hframe.atPc hne (h.atPc t' hne)
  · rw [hframe.blockedReaders, hpc, h.blockedReaders]
  · rw [hframe.blockedWriters, hpc, h.blockedWriters]
  rw [hret]
  exact h.returned

theorem takeRead (hfree : s.word.writeOwner = false) : Core clean (s.takeRead t) t nr nw :=
  h.setHolds (h.held.takeRead hfree) frame_reads rfl rfl

theorem takeWrite (hfree : s.word.free) : Core clean (s.takeWrite t) t nr nw :=
  h.setHolds (h.held.takeWrite hfree) frame_writes rfl rfl

theorem dropRead (hread : s.reads t ≠ 0) : Core clean (s.dropRead t) t nr nw :=
  h.setHolds (h.held.dropRead hread) frame_reads rfl rfl

theorem dropWrite (hwrite : s.writes t) : Core clean (s.dropWrite t) t nr nw :=
  h.setHolds (h.held.dropWrite hwrite) frame_writes rfl rfl

/-- A wait ends. -/
theorem endWait {node : Nat} {error : Option ErrorCode} : Core clean (s.endWait t node error) t nr nw :=
  ⟨h.held.congr rfl rfl rfl rfl, h.outside,
    fun t' hne => atPc_congr (s := s) rfl rfl (update_of_ne hne _ _) (h.atPc t' hne),
    h.blockedReaders, h.blockedWriters, h.returned⟩

end

end Core

/-! ## Steps and runs -/

namespace Inv

/-- The thread has the chain's mutex. -/
theorem at_pc (h : Inv clean s) (hpc : s.pc t = p) (hin : p.inside) :
    s.holder = some t ∧ s.AtPc clean t p ∧ Core clean s t p.rdBlocked p.wrBlocked := by
  have ht : s.holder = some t := (h.inside t).mp (by rw [hpc]; exact hin)
  have hat := h.atPc t
  have hcore := h.core (.inl ht)
  rw [hpc] at hat hcore
  exact ⟨ht, hat, hcore⟩

theorem enter {p0 : Pc} (h : Inv clean s) (hpc : s.pc t = p0) (hnone : p0.rdBlocked = 0 ∧ p0.wrBlocked = 0)
    (hstep : s.enter t p = some s') (hin : p.inside) (hat : s.AtPc clean t p0 → s.AtPc clean t p)
    (hr : p.rdBlocked = 0) (hw : p.wrBlocked = 0) : Inv clean s' := by
  rw [State.enter] at hstep
  split at hstep
  · next hfree =>
    cases hstep
    have hcore := h.core (t := t) (.inr hfree)
    rw [hpc, hnone.1, hnone.2] at hcore
    refine hcore.settle rfl ?_ (h.held.congr rfl rfl rfl rfl) ⟨fun _ _ => rfl, fun _ _ => rfl, fun _ _ => rfl, rfl, rfl⟩
      (atPc_congr rfl rfl rfl (hat (hpc ▸ h.atPc t))) hr hw h.returned
    rw [if_pos hin]
  · cases hstep

/-- A thread that is not in the kernel, or only about to be, moves and changes its own holds. -/
theorem outside (h : Inv clean s) (hdone : s.pc t = .done) (hpc : s'.pc = update s.pc t p)
    (hin : p.inside = false) (hr : p.rdBlocked = 0) (hw : p.wrBlocked = 0) (hheld : Held s') (hframe : Frame s s' t)
    (hat : s'.AtPc clean t p) (hholder : s'.holder = s.holder) (hret : s'.returned = s.returned) : Inv clean s' := by
  have hcount : ∀ weight : Pc → Nat, weight .done = 0 → weight p = 0 → tally weight s'.pc = tally weight s.pc := by
    intro weight h0 h1
    rw [hpc, tally_update, tally_eq _ s.pc t, hdone, h0, h1]
  refine ⟨hheld, fun t' => ?_, fun t' => ?_, ?_, ?_, ?_⟩
  · rw [hholder, ← h.inside t', hpc]
    by_cases hself : t' = t
    · subst hself
      rw [update_self, hdone, hin]
      rfl
    rw [update_of_ne hself]
  · rw [hpc]
    by_cases hself : t' = t
    · subst hself
      rwa [update_self]
    rw [update_of_ne hself]
    exact hframe.atPc hself (h.atPc t')
  · rw [hframe.blockedReaders, h.blockedReaders, hcount _ rfl hr]
  · rw [hframe.blockedWriters, h.blockedWriters, hcount _ rfl hw]
  rw [hret]
  exact h.returned

end Inv

theorem Inv.start (h : Inv clean s) (hstep : s.start t p = some s') (hin : p.inside = false)
    (hr : p.rdBlocked = 0) (hw : p.wrBlocked = 0) (hat : s'.AtPc clean t p) : Inv clean s' := by
  obtain ⟨hdone, rfl⟩ := start_eq_some hstep
  exact h.outside hdone rfl hin hr hw (h.held.congr rfl rfl rfl rfl)
    ⟨fun _ _ => rfl, fun _ _ => rfl, fun _ hne => update_of_ne hne _ _, rfl, rfl⟩ hat rfl rfl

theorem Inv.guest (h : Inv clean s)
    (hstep : s.guest t allowed s' = some s'') (hheld : allowed → Held s') (hframe : Frame s s' t)
    (hpc : s'.pc = s.pc) (hholder : s'.holder = s.holder) (hret : s'.returned = s.returned) : Inv clean s'' := by
  obtain ⟨hdone, hallowed, rfl⟩ := guest_eq_some hstep
  refine h.outside hdone (p := .done) ?_ rfl rfl rfl (hheld hallowed) hframe trivial hholder hret
  rw [hpc, ← hdone, update_eq_self]

section

variable {spurious : Bool} (h : Inv clean s) (hstep : s.advance t spurious = some s')

include h hstep

/-- A step of a `rdlock`. -/
theorem Inv.advanceRead (hkind : (s.pc t).kind = some .rdlock) : Inv clean s' := by
  cases hpc : s.pc t <;> rw [hpc] at hkind <;> cases hkind <;> simp only [advance, hpc] at hstep
  case rdEnter c => exact h.enter hpc ⟨rfl, rfl⟩ hstep rfl (fun hat => hat) rfl rfl
  case rdLoad c =>
    obtain ⟨ht, he, hcore⟩ := h.at_pc hpc rfl
    cases hstep
    exact hcore.rdFirst ht he
  case rdTry c state =>
    obtain ⟨ht, ⟨hfree, he⟩, hcore⟩ := h.at_pc hpc rfl
    split at hstep
    · next heq =>
      cases hstep
      exact (hcore.takeRead (by rw [heq]; exact hfree)).leave fun hclean _ => ⟨fun _ => rfl, absurd (he hclean)⟩
    · cases hstep
      exact hcore.rdFirst ht he
  case rdMark c state =>
    obtain ⟨ht, he, hcore⟩ := h.at_pc hpc rfl
    split at hstep
    · next heq =>
      cases hstep
      exact (hcore.setWord (by rw [heq.1]) (by rw [heq.1])).rdBlock ht he
    · cases hstep
      exact hcore.rdSecond ht he
  case rdSleep => cases hstep
  case rdReload c =>
    obtain ⟨ht, he, hcore⟩ := h.at_pc hpc rfl
    split at hstep
    · cases hstep
      exact hcore.sleep (fun _ => rfl) (fun _ => he) (fun _ => rfl) (fun _ => rfl)
    obtain rfl := some.inj hstep
    exact hcore.rdUnblock ht he
  case rdClear c state =>
    obtain ⟨ht, he, hcore⟩ := h.at_pc hpc rfl
    split at hstep
    · next heq =>
      cases hstep
      exact (hcore.setWord (by rw [heq.1]) (by rw [heq.1])).goto ht rfl he rfl rfl
    · cases hstep
      exact hcore.goto ht rfl he rfl rfl

/-- A step of a `wrlock`. -/
theorem Inv.advanceWrite (hclean : clean → Clean s (.run t spurious)) (hkind : (s.pc t).kind = some .wrlock) :
    Inv clean s' := by
  cases hpc : s.pc t <;> rw [hpc] at hkind <;> cases hkind <;> simp only [advance, hpc] at hstep
  case wrEnter c => exact h.enter hpc ⟨rfl, rfl⟩ hstep rfl (fun hat => hat) rfl rfl
  case wrLoad c =>
    obtain ⟨ht, herr, hcore⟩ := h.at_pc hpc rfl
    cases hstep
    exact hcore.wrFirst ht herr fun hc => (hclean hc).2 c hpc
  case wrTry c state took =>
    obtain ⟨ht, ⟨hfree, he⟩, hcore⟩ := h.at_pc hpc rfl
    split at hstep
    · next heq =>
      cases hstep
      exact (hcore.takeWrite (by rw [heq]; exact hfree)).goto ht rfl ⟨hfree, he⟩ rfl rfl
    · next hne =>
      cases hstep
      refine hcore.leave fun hc _ => ⟨fun _ => ?_, absurd (he hc)⟩
      cases took with
      | true => rfl
      | false => exact absurd ((hclean hc).1 c state hpc) hne
  case wrLoadAgain c =>
    obtain ⟨ht, ⟨herr, hwait⟩, hcore⟩ := h.at_pc hpc rfl
    cases hstep
    exact hcore.wrSecond ht herr hwait
  case wrMark c state =>
    obtain ⟨ht, ⟨herr, hwait⟩, hcore⟩ := h.at_pc hpc rfl
    split at hstep
    · next heq =>
      cases hstep
      exact (hcore.setWord (by rw [heq]) (by rw [heq])).goto ht rfl ⟨herr, hwait⟩ rfl rfl
    · cases hstep
      exact hcore.wrBlock ht herr hwait
  case wrSleep => cases hstep
  case wrReload c =>
    obtain ⟨ht, ⟨herr, hwait⟩, hcore⟩ := h.at_pc hpc rfl
    split at hstep
    · obtain rfl := some.inj hstep
      exact hcore.wrUnblock ht hwait.symm
    · cases hstep
      exact hcore.sleep (fun _ => rfl) (fun _ => ⟨herr, hwait⟩) (fun _ => rfl) (fun _ => rfl)
  case wrClearLoad c =>
    obtain ⟨ht, herr, hcore⟩ := h.at_pc hpc rfl
    cases hstep
    exact hcore.goto ht rfl herr rfl rfl
  case wrClear c state =>
    obtain ⟨ht, herr, hcore⟩ := h.at_pc hpc rfl
    split at hstep
    · next heq =>
      cases hstep
      exact (hcore.setWord (by rw [heq.1]) (by rw [heq.1])).goto ht rfl herr rfl rfl
    · cases hstep
      exact hcore.goto ht rfl herr rfl rfl

/-- A step of an unlock. -/
theorem Inv.advanceUnlock (hkind : (s.pc t).kind = some .unlock) : Inv clean s' := by
  cases hpc : s.pc t <;> rw [hpc] at hkind <;> cases hkind <;> simp only [advance, hpc] at hstep
  case unEnter => exact h.enter hpc ⟨rfl, rfl⟩ hstep rfl (fun hat => hat) rfl rfl
  case unLoad =>
    obtain ⟨ht, hhas, hcore⟩ := h.at_pc hpc rfl
    split at hstep
    · next howner =>
      cases hstep
      have hwrite : s.writes t := hhas.resolve_left fun hread => by
        rw [h.held.reader_excludes hread] at howner
        cases howner
      exact hcore.goto ht rfl hwrite rfl rfl
    · next howner =>
      have hread : s.reads t ≠ 0 := hhas.resolve_right fun hwrite => howner (h.held.owner.mpr ⟨t, hwrite⟩)
      rw [if_pos (h.held.readers_ne_zero hread)] at hstep
      cases hstep
      exact hcore.goto ht rfl hread rfl rfl
  case unWrite state =>
    obtain ⟨ht, hwrite, hcore⟩ := h.at_pc hpc rfl
    rw [if_pos (h.held.owner.mpr ⟨t, hwrite⟩)] at hstep
    split at hstep
    · cases hstep
      exact (hcore.dropWrite hwrite).unNotify
    · cases hstep
      exact hcore.goto ht rfl hwrite rfl rfl
  case unRead state =>
    obtain ⟨ht, hread, hcore⟩ := h.at_pc hpc rfl
    rw [if_pos (h.held.readers_ne_zero hread)] at hstep
    split at hstep
    · cases hstep
      exact (hcore.dropRead hread).unNotify
    · cases hstep
      exact hcore.goto ht rfl hread rfl rfl

theorem Inv.advance (hclean : clean → Clean s (.run t spurious)) : Inv clean s' := by
  cases hkind : (s.pc t).kind with
  | none =>
    have hdone : s.pc t = .done := by cases hpc : s.pc t <;> rw [hpc] at hkind <;> trivial
    rw [State.advance, hdone] at hstep
    cases hstep
  | some kind =>
    cases kind with
    | rdlock => exact h.advanceRead hstep hkind
    | wrlock => exact h.advanceWrite hstep hclean hkind
    | unlock => exact h.advanceUnlock hstep hkind

end

theorem Inv.wake {result : Option ErrorCode} {timeUp : Bool} (h : Inv clean s)
    (hclean : clean → Clean s (.wake t result timeUp)) (hstep : s.wake t result timeUp = some s') : Inv clean s' := by
  rw [State.wake] at hstep
  split at hstep
  · cases hstep
  · next hfree =>
    have hcore := h.core (t := t) (.inr (not_ne_iff.mp hfree))
    split at hstep
    · next c state node hpc =>
      rw [hpc] at hcore
      split at hstep
      · cases hstep
        exact h
      · cases hstep
        exact hcore.endWait.goto rfl rfl (fun _ => update_self _ _ _) rfl rfl
      next error hwait =>
      obtain rfl := some.inj hstep
      exact hcore.endWait.rdUnblock rfl fun hc => nomatch waitResult_eq hwait (hclean hc c state node hpc)
    · next c node hpc =>
      have hat := h.atPc t
      rw [hpc] at hcore hat
      split at hstep
      · cases hstep
        exact h
      · cases hstep
        exact hcore.endWait.goto rfl rfl ⟨hat.1, update_self _ _ _⟩ rfl rfl
      obtain rfl := some.inj hstep
      exact hcore.endWait.wrUnblock rfl (update_self t _ s.waitError).symm
    · cases hstep

theorem Inv.step {l : Label T} (h : Inv clean s) (hclean : clean → Clean s l) (hstep : s.step l = some s') :
    Inv clean s' := by
  cases l with
  | rdlock t c =>
    refine h.start hstep rfl rfl rfl fun _ => ?_
    obtain ⟨-, rfl⟩ := start_eq_some hstep
    exact update_self _ _ _
  | wrlock t timed =>
    refine h.start hstep rfl rfl rfl ?_
    obtain ⟨-, rfl⟩ := start_eq_some hstep
    exact (update_self t _ s.waitError).symm
  | unlock t =>
    rw [State.step] at hstep
    split at hstep
    · next hhas =>
      refine h.start hstep rfl rfl rfl ?_
      obtain ⟨-, rfl⟩ := start_eq_some hstep
      exact hhas
    · cases hstep
  | run t spurious => exact h.advance hstep hclean
  | wake t result timeUp => exact h.wake hclean hstep
  | guestRead t =>
    refine h.guest hstep (fun hallowed => ?_) frame_reads rfl rfl rfl
    rw [Bool.and_eq_true, Bool.not_eq_true'] at hallowed
    exact h.held.takeRead hallowed.1
  | guestWrite t =>
    exact h.guest hstep h.held.takeWrite frame_writes rfl rfl rfl
  | guestDropRead t =>
    exact h.guest hstep (fun hallowed => h.held.dropRead (of_decide_eq_true hallowed)) frame_reads rfl rfl rfl
  | guestDropWrite t =>
    exact h.guest hstep h.held.dropWrite frame_writes rfl rfl rfl

omit [DecidableEq T] in
theorem init_inv (flags : Flags) : Inv clean (init flags : State T) := by
  have hzero : ∀ weight : Pc → Nat, weight .done = 0 → tally weight (fun _ : T => .done) = 0 := by
    intro weight h0
    rw [tally, Finset.sum_eq_zero fun _ _ => h0]
  refine ⟨⟨Finset.sum_eq_zero fun _ _ => rfl, ⟨nofun, fun ⟨_, h⟩ => nomatch h⟩, nofun, nofun⟩,
    fun t => ⟨nofun, nofun⟩, fun t => trivial, ?_, ?_, nofun⟩
  · change 0 = tally Pc.rdBlocked (fun _ : T => .done) % _
    rw [hzero _ rfl]
  change 0 = tally Pc.wrBlocked (fun _ : T => .done) % _
  rw [hzero _ rfl]

def outcome (ls : List (Label Bool)) : Option (List (Returned Bool) × Bool × Bool) :=
  (ls.foldlM step (init ⟨false, false⟩)).map fun s => (s.returned, s.writes false, s.writes true)

end State

end Rpcsx.Orbis.Umtx.RwLock
