import Rpcsx.Orbis.Umtx.Chain

/-!
# User-space read-write locks

`umtx_rw_rdlock`, `umtx_rw_wrlock` and `umtx_rw_unlock` on one lock, with the guest's own changes of
the lock word in between. Each step of a thread in the kernel is one access to the word, with what the
call does up to the next one. The word is given by its fields: the owner bit of a writer, the two bits
that tell of waiters, and the number of readers, which no transition takes beyond
`kUrwLockMaxReaders`. A weak exchange may fail for no reason, and a sleep may end at any time.
-/

namespace Rpcsx.Orbis.Umtx.RwLock

open Function

def kUrwLockMaxReaders : Nat := 0x1fffffff

structure Word where
  writeOwner : Bool
  writeWaiters : Bool
  readWaiters : Bool
  readers : Nat
  deriving DecidableEq

def Word.free (w : Word) : Bool := !w.writeOwner && w.readers = 0

structure Flags where
  shared : Bool
  preferReader : Bool

/-- The arguments of `umtx_rw_rdlock`: `kUrwLockPreferReader` in `fflag`, and whether `ut` is a
timeout. -/
structure RdCall where
  preferReader : Bool
  timed : Bool

/-- The argument and the variables of `umtx_rw_wrlock`. -/
structure WrCall where
  timed : Bool
  error : Option ErrorCode
  blockedReaders : Nat

def wrflags (flags : Flags) (c : RdCall) (state : Word) : Bool :=
  state.writeOwner || (!c.preferReader && !flags.preferReader && state.writeWaiters)

/-- Where a thread is: before which access to the word, or asleep. -/
inductive Pc
  | done
  | rdEnter (c : RdCall)
  | rdLoad (c : RdCall)
  | rdTry (c : RdCall) (state : Word)
  | rdMark (c : RdCall) (state : Word)
  | rdSleep (c : RdCall) (state : Word) (node : Nat)
  | rdReload (c : RdCall)
  | rdClear (c : RdCall) (state : Word)
  | wrEnter (c : WrCall)
  | wrLoad (c : WrCall)
  /-- `took` is a ghost: an exchange of this call has taken the lock. -/
  | wrTry (c : WrCall) (state : Word) (took : Bool)
  | wrLoadAgain (c : WrCall)
  | wrMark (c : WrCall) (state : Word)
  | wrSleep (c : WrCall) (node : Nat)
  | wrReload (c : WrCall)
  | wrClearLoad (c : WrCall)
  | wrClear (c : WrCall) (state : Word)
  | unEnter
  | unLoad
  | unWrite (state : Word)
  | unRead (state : Word)

def Pc.inside : Pc → Bool
  | .done | .rdEnter _ | .rdSleep _ _ _ | .wrEnter _ | .wrSleep _ _ | .unEnter => false
  | _ => true

inductive Kind
  | rdlock | wrlock | unlock
  deriving DecidableEq

/-- A call that returned: its result, whether one of its exchanges took the lock, and how its last wait
ended. -/
structure Returned (T : Type) where
  thread : T
  kind : Kind
  result : Option ErrorCode
  took : Bool
  waitError : Option ErrorCode
  deriving DecidableEq

/-- The lock, the chain and the threads. The last four fields are ghosts: who has the lock for reading,
how many times, and for writing, how the last wait of a thread ended, and the calls that returned. -/
structure State (T : Type) where
  word : Word
  flags : Flags
  blockedReaders : Nat
  blockedWriters : Nat
  chain : UmtxChain Unit T
  holder : Option T
  pc : T → Pc
  reads : T → Nat
  writes : T → Bool
  waitError : T → Option ErrorCode
  returned : List (Returned T)

namespace State

variable {T : Type} [DecidableEq T]

def init (flags : Flags) : State T :=
  ⟨⟨false, false, false, 0⟩, flags, 0, 0, .empty, none, fun _ => .done, fun _ => 0, fun _ => false,
    fun _ => none, []⟩

def goto (s : State T) (t : T) (pc : Pc) : State T := { s with pc := update s.pc t pc }

def leave (s : State T) (t : T) (kind : Kind) (result : Option ErrorCode) (took : Bool) : State T :=
  { s with
    holder := none
    pc := update s.pc t .done
    returned := ⟨t, kind, result, took, s.waitError t⟩ :: s.returned }

def enter (s : State T) (t : T) (pc : Pc) : Option (State T) :=
  if s.holder = none then some { s with holder := some t, pc := update s.pc t pc } else none

def sleep (s : State T) (t : T) (pc : Nat → Pc) : State T :=
  let (chain, node) := s.chain.enqueue () t
  { s with chain, holder := none, pc := update s.pc t (pc node) }

def inc (n : Nat) : Nat := (n + 1) % 0x100000000

def dec (n : Nat) : Nat := (n + 0xffffffff) % 0x100000000

def takeRead (s : State T) (t : T) : State T :=
  { s with
    word := { s.word with readers := s.word.readers + 1 }
    reads := update s.reads t (s.reads t + 1) }

def takeWrite (s : State T) (t : T) : State T :=
  { s with
    word := { s.word with writeOwner := true }
    writes := update s.writes t true }

def dropRead (s : State T) (t : T) : State T :=
  { s with
    word := { s.word with readers := s.word.readers - 1 }
    reads := update s.reads t (s.reads t - 1) }

def dropWrite (s : State T) (t : T) : State T :=
  { s with
    word := { s.word with writeOwner := false }
    writes := update s.writes t false }

/-! ## `umtx_rw_rdlock` -/

/-- `++blocked_readers` and the first turn of the wait, or back to the top. -/
def rdBlock (s : State T) (t : T) (c : RdCall) (state : Word) : State T :=
  if wrflags s.flags c state then
    { s with blockedReaders := inc s.blockedReaders }.sleep t (.rdSleep c state)
  else s.goto t (.rdLoad c)

/-- The second loop: the bit that tells of readers that wait has to be set. -/
def rdSecond (s : State T) (t : T) (c : RdCall) (state : Word) : State T :=
  if wrflags s.flags c state = true ∧ state.readWaiters = false then s.goto t (.rdMark c state)
  else s.rdBlock t c state

/-- The first loop: no writer is in the way. -/
def rdFirst (s : State T) (t : T) (c : RdCall) (state : Word) : State T :=
  if wrflags s.flags c state then s.rdSecond t c state
  else if state.readers = kUrwLockMaxReaders then s.leave t .rdlock (some .WOULDBLOCK) false
  else s.goto t (.rdTry c state)

/-- `--blocked_readers` after the wait. -/
def rdUnblock (s : State T) (t : T) (c : RdCall) (state : Word) : State T :=
  let s := { s with blockedReaders := dec s.blockedReaders }
  if s.blockedReaders = 0 then s.goto t (.rdClear c state) else s.goto t (.rdLoad c)

/-! ## `umtx_rw_wrlock` -/

/-- `++blocked_writers` and the first turn of the wait, or back to the top. -/
def wrBlock (s : State T) (t : T) (c : WrCall) (state : Word) : State T :=
  if state.free then s.goto t (.wrLoad c)
  else { s with blockedWriters := inc s.blockedWriters }.sleep t (.wrSleep c)

/-- The second loop: the bit that tells of writers that wait has to be set. -/
def wrSecond (s : State T) (t : T) (c : WrCall) (state : Word) : State T :=
  if state.free = false ∧ state.writeWaiters = false then s.goto t (.wrMark c state)
  else s.wrBlock t c state

/-- The first loop, with the error that a wait has ended with. -/
def wrFirst (s : State T) (t : T) (c : WrCall) (state : Word) : State T :=
  if state.free then s.goto t (.wrTry c state false)
  else if c.error ≠ none then
    let chain :=
      if state.writeOwner = false ∧ state.writeWaiters = false ∧ c.blockedReaders ≠ 0 then
        s.chain.notifyOne ()
      else s.chain
    { s with chain }.leave t .wrlock c.error false
  else s.goto t (.wrLoadAgain c)

/-- `--blocked_writers` after the wait. -/
def wrUnblock (s : State T) (t : T) (c : WrCall) : State T :=
  let s := { s with blockedWriters := dec s.blockedWriters }
  if s.blockedWriters = 0 then s.goto t (.wrClearLoad c)
  else s.goto t (.wrLoad { c with blockedReaders := 0 })

/-! ## `umtx_rw_unlock` -/

/-- How many threads are woken. `notify_n` takes a signed number, for which `UINT_MAX` is negative. -/
def wakeCount (flags : Flags) (state : Word) : Nat :=
  if flags.preferReader = false then (if state.writeWaiters then 1 else 0)
  else if state.readWaiters then 0
  else if state.writeWaiters then 1 else 0

def unNotify (s : State T) (t : T) (state : Word) : State T :=
  let count := if s.flags.shared then s.chain.count () else wakeCount s.flags state
  { s with chain := (s.chain.notifyN () count).1 }.leave t .unlock none false

/-! ## Steps -/

/-- The next step of a thread in the kernel. A weak exchange fails if `spurious`. -/
def advance (s : State T) (t : T) (spurious : Bool) : Option (State T) :=
  match s.pc t with
  | .done | .rdSleep _ _ _ | .wrSleep _ _ => none
  | .rdEnter c => s.enter t (.rdLoad c)
  | .rdLoad c => some (s.rdFirst t c s.word)
  | .rdTry c state =>
    if s.word = state then some ((s.takeRead t).leave t .rdlock none true)
    else some (s.rdFirst t c s.word)
  | .rdMark c state =>
    if s.word = state ∧ spurious = false then
      some ({ s with word := { state with readWaiters := true } }.rdBlock t c state)
    else some (s.rdSecond t c s.word)
  | .rdReload c =>
    if wrflags s.flags c s.word then some (s.sleep t (.rdSleep c s.word))
    else some (s.rdUnblock t c s.word)
  | .rdClear c state =>
    -- the loop goes on after a success
    if s.word = state ∧ spurious = false then
      some ({ s with word := { state with readWaiters := false } }.goto t (.rdClear c state))
    else some (s.goto t (.rdLoad c))
  | .wrEnter c => s.enter t (.wrLoad c)
  | .wrLoad c => some (s.wrFirst t c s.word)
  | .wrTry c state took =>
    -- success is reported when the exchange fails
    if s.word = state then some ((s.takeWrite t).goto t (.wrTry c state true))
    else some (s.leave t .wrlock none took)
  | .wrLoadAgain c => some (s.wrSecond t c s.word)
  | .wrMark c state =>
    if s.word = state then
      some ({ s with word := { state with writeWaiters := true } }.goto t (.wrMark c state))
    else some (s.wrBlock t c s.word)
  | .wrReload c =>
    if s.word.free then some (s.wrUnblock t { c with error := none })
    else some (s.sleep t (.wrSleep c))
  | .wrClearLoad c => some (s.goto t (.wrClear c s.word))
  | .wrClear c state =>
    if s.word = state ∧ spurious = false then
      some ({ s with word := { state with writeWaiters := false } }.goto t
        (.wrLoad { c with blockedReaders := s.blockedReaders }))
    else some (s.goto t (.wrClear c s.word))
  | .unEnter => s.enter t .unLoad
  | .unLoad =>
    if s.word.writeOwner then some (s.goto t (.unWrite s.word))
    else if s.word.readers ≠ 0 then some (s.goto t (.unRead s.word))
    else some (s.leave t .unlock (some .PERM) false)
  | .unWrite state =>
    if s.word = state ∧ spurious = false then some ((s.dropWrite t).unNotify t state)
    else if s.word.writeOwner then some (s.goto t (.unWrite s.word))
    else some (s.leave t .unlock (some .PERM) false)
  | .unRead state =>
    if s.word = state ∧ spurious = false then some ((s.dropRead t).unNotify t state)
    else if s.word.readers ≠ 0 then some (s.goto t (.unRead s.word))
    else some (s.leave t .unlock (some .PERM) false)

/-- How a sleep ends for the code around it: with a wake-up, with an error, or not at all. -/
def waitResult (s : State T) (t : T) (node : Nat) (timed : Bool) (result : Option ErrorCode)
    (timeUp : Bool) : Option (Option ErrorCode) :=
  if s.chain.thr node ≠ some t then some none
  else if timed = true ∧ timeUp = true then some (some .TIMEDOUT)
  else if result ≠ none then some result
  else none

def endWait (s : State T) (t : T) (node : Nat) (error : Option ErrorCode) : State T :=
  { s with
    chain := if error = none then s.chain else s.chain.erase node
    holder := some t
    waitError := update s.waitError t error }

def wake (s : State T) (t : T) (result : Option ErrorCode) (timeUp : Bool) : Option (State T) :=
  if s.holder ≠ none then none
  else
    match s.pc t with
    | .rdSleep c state node =>
      match s.waitResult t node c.timed result timeUp with
      | none => some s
      | some none => some ((s.endWait t node none).goto t (.rdReload c))
      | some (some error) => some ((s.endWait t node (some error)).rdUnblock t c state)
    | .wrSleep c node =>
      match s.waitResult t node c.timed result timeUp with
      | none => some s
      | some none => some ((s.endWait t node none).goto t (.wrReload c))
      | some (some error) =>
        some ((s.endWait t node (some error)).wrUnblock t { c with error := some error })
    | _ => none

inductive Label (T : Type)
  | rdlock (t : T) (c : RdCall)
  | wrlock (t : T) (timed : Bool)
  /-- A thread calls `umtx_rw_unlock` for a hold of its own. -/
  | unlock (t : T)
  | run (t : T) (spurious : Bool)
  | wake (t : T) (result : Option ErrorCode) (timeUp : Bool)
  | guestRead (t : T)
  | guestWrite (t : T)
  | guestDropRead (t : T)
  | guestDropWrite (t : T)

def start (s : State T) (t : T) (pc : Pc) : Option (State T) :=
  match s.pc t with
  | .done => some { s.goto t pc with waitError := update s.waitError t none }
  | _ => none

def guest (s : State T) (t : T) (allowed : Bool) (s' : State T) : Option (State T) :=
  match s.pc t with
  | .done => if allowed then some s' else none
  | _ => none

def step (s : State T) : Label T → Option (State T)
  | .rdlock t c => s.start t (.rdEnter c)
  | .wrlock t timed => s.start t (.wrEnter ⟨timed, none, 0⟩)
  | .unlock t => if s.reads t ≠ 0 ∨ s.writes t = true then s.start t .unEnter else none
  | .run t spurious => s.advance t spurious
  | .wake t result timeUp => s.wake t result timeUp
  | .guestRead t =>
    s.guest t (!s.word.writeOwner && s.word.readers < kUrwLockMaxReaders) (s.takeRead t)
  | .guestWrite t => s.guest t s.word.free (s.takeWrite t)
  | .guestDropRead t => s.guest t (s.reads t ≠ 0) (s.dropRead t)
  | .guestDropWrite t => s.guest t (s.writes t) (s.dropWrite t)

end State

end Rpcsx.Orbis.Umtx.RwLock
