import Rpcsx.Rx.SharedMutex.Counts

/-!
# `rx::shared_cv`

The condition variable for futexes, together with the mutex it works on. Its word has the number of
waiters in the low half, the number of granted signals above it, and the bit that tells that the mutex
was taken for one of them. A waker adds writers to the word of the mutex for the waiters it is about to
signal; a waiter that takes a signal finds its writer there.

One step is one atomic operation on one of the two words. A futex wait may end at any time and with any
result, so the queues of the futexes and what `FUTEX_REQUEUE` does to them are not modelled, only the
number that it returns.
-/

namespace Rpcsx.Rx.SharedCV

open SharedMutex Function

def waiters (value : Nat) : Nat := value % 0x10000

def granted (value : Nat) : Nat := value / 0x10000 % 0x8000

def locked (value : Nat) : Bool := value ≥ 0x80000000

inductive Errc
  | ok | timedOut | interrupted | tryAgain
  deriving DecidableEq

/-- Where a thread is: in no call, or before an operation of one. -/
inductive Pc
  | idle
  | lock (pc : LockPc)
  | unlock (pc : UnlockPc)
  /-- `wait` has returned. -/
  | waited (result : Errc)
  | addWaiter
  | waitUnlock (val : Nat) (pc : UnlockPc)
  | sleep (val : Nat)
  | cleanup (result : Errc)
  | implWait (pc : WaitPc)
  | relock (result : Errc) (pc : LockPc)
  | notify (count : Nat)
  | wakeLoad (count : Nat)
  | force (count : Nat) (isOne : Bool)
  | grant (count : Nat) (isOne locked : Bool)
  | fixup (extra count : Nat) (isOne : Bool)
  | requeue (count : Nat) (isOne : Bool)
  | aborted
  | died
  deriving DecidableEq

def intMax : Nat := 0x7fffffff

/-- What the kernel answers: how a wait on the word of the mutex or of the condition variable ends, and
how many threads were woken or requeued. -/
structure Answer where
  interrupted : Bool
  result : Errc
  requeued : Nat

/-- Both words and the threads. The holds, the pending signals of the mutex, the granted signals and
those for which the mutex is taken are ghosts. -/
structure State (T : Type) where
  mutex : Nat
  cv : Nat
  pc : T → Pc
  hold : T → Hold
  signals : Nat
  granted : Nat
  lockGranted : Nat

def Turn.into {P : Type} (turn : Turn P) (place : P → Pc) (done fail : Pc) : Turn Pc where
  value := turn.value
  flow :=
    match turn.flow with
    | .goto pc => .goto (place pc)
    | .done => .goto done
    | .fail => .goto fail
    | .die => .die
  effect := turn.effect
  signal := turn.signal

namespace State

variable {T : Type} [DecidableEq T]

def init : State T := ⟨0, 0, fun _ => .idle, fun _ => ⟨0, 0⟩, 0, 0, 0⟩

def goto (s : State T) (t : T) (pc : Pc) : State T := { s with pc := update s.pc t pc }

def apply (s : State T) (t : T) (turn : Turn Pc) : State T :=
  { s with
    mutex := turn.value
    pc := update s.pc t (match turn.flow with | .goto pc => pc | _ => .died)
    hold := update s.hold t (turn.effect.apply (s.hold t))
    signals := turn.signal.apply s.signals }

/-! ## `wait` -/

def addWaiter (s : State T) (t : T) : State T :=
  if SharedCV.granted s.cv = 0x7fff ∨ waiters s.cv = 0xffff then s.goto t (.waited .ok)
  else { s with cv := s.cv + 1 }.goto t (.waitUnlock (s.cv + 1) .drop)

def cleanupValue (old : Nat) (result : Errc) : Nat :=
  let value := if old / 0x10000 = 0 ∧ result ≠ .tryAgain then sub old 1 else old
  let value := if SharedCV.granted value ≠ 0 then value - 0x10000 else value
  if SharedCV.locked value then value - 0x80000000 else value

def cleanup (s : State T) (t : T) (result : Errc) : State T :=
  let s' := { s with
    cv := cleanupValue s.cv result
    granted := if SharedCV.granted s.cv ≠ 0 then s.granted - 1 else s.granted
    lockGranted := if SharedCV.locked s.cv then s.lockGranted - 1 else s.lockGranted }
  if SharedCV.locked s.cv then
    { s' with hold := update s.hold t (Effect.addWrite.apply (s.hold t)) }.goto t (.waited .ok)
  else if SharedCV.granted s.cv ≠ 0 then s'.goto t (.implWait .check)
  else if result ≠ .tryAgain then s'.goto t (.relock result .fast)
  else s'.goto t (.sleep s.cv)

/-! ## `notify_one` and `notify_all` -/

def wakeLoad (s : State T) (t : T) (count : Nat) : State T :=
  let n := min count (waiters s.cv)
  if n = 0 then s.goto t .idle else s.goto t (.force n (count = 1))

/-- `shared_mutex::lock_forced`, for writers that are added. -/
def lockForced (s : State T) (count : Nat) : State T × Bool :=
  if signalled s.mutex then
    ({ s with mutex := add (sub s.mutex c_sig) (c_one * count), signals := s.signals - 1 }, true)
  else ({ s with mutex := add s.mutex (c_one * count) }, s.mutex = 0)

def afterGrant (count : Nat) (isOne : Bool) : Pc := if count ≠ 0 then .requeue count isOne else .idle

def grant (s : State T) (t : T) (count : Nat) (isOne locked : Bool) : State T :=
  let maxSig := min count (waiters s.cv)
  if locked = true ∧ maxSig = 0 then s.goto t .aborted
  else
    let value := if locked = true ∧ SharedCV.locked s.cv = false then s.cv + 0x80000000 else s.cv
    { s with
      cv := sub (add value (0x10000 * maxSig)) maxSig
      granted := s.granted + maxSig
      lockGranted := s.lockGranted + locked.toNat }.goto t
      (if maxSig < count then .fixup (count - maxSig) maxSig isOne else afterGrant maxSig isOne)

/-! ## Steps -/

def advance (s : State T) (t : T) (answer : Answer) : Option (State T) :=
  match s.pc t with
  | .idle | .waited _ | .aborted | .died => none
  | .lock pc =>
    some (s.apply t (Turn.into (SharedMutex.lock s.mutex answer.interrupted pc) .lock .idle .idle))
  | .unlock pc => some (s.apply t (Turn.into (SharedMutex.unlock s.mutex pc) .unlock .idle .idle))
  | .addWaiter => some (s.addWaiter t)
  | .waitUnlock val pc =>
    some (s.apply t (Turn.into (SharedMutex.unlock s.mutex pc) (.waitUnlock val) (.sleep val) .idle))
  | .sleep _ => some (s.goto t (.cleanup answer.result))
  | .cleanup result => some (s.cleanup t result)
  | .implWait pc =>
    some (s.apply t (Turn.into (SharedMutex.implWait s.mutex answer.interrupted pc) .implWait
      (.waited .ok) (.waited .interrupted)))
  | .relock result pc =>
    some (s.apply t (Turn.into (SharedMutex.lock s.mutex answer.interrupted pc) (.relock result)
      (.waited result) .idle))
  | .notify count => some (s.goto t (if s.cv ≠ 0 then .wakeLoad count else .idle))
  | .wakeLoad count => some (s.wakeLoad t count)
  | .force count isOne =>
    let (s', locked) := s.lockForced count
    some (s'.goto t (.grant count isOne locked))
  | .grant count isOne locked => some (s.grant t count isOne locked)
  | .fixup extra count isOne =>
    some ({ s with mutex := sub s.mutex (c_one * extra % 0x100000000) }.goto t (afterGrant count isOne))
  | .requeue count isOne =>
    some (s.goto t (if answer.requeued < count then .wakeLoad (if isOne then 1 else intMax) else .idle))

/-- What happens next: a call begins, or a thread takes a step of the one it is in. -/
inductive Label (T : Type)
  | lock (t : T)
  | unlock (t : T)
  | wait (t : T)
  | notifyOne (t : T)
  | notifyAll (t : T)
  | run (t : T) (answer : Answer)

def start (s : State T) (t : T) (allowed : Bool) (pc : Pc) : Option (State T) :=
  match s.pc t with
  | .idle | .waited _ => if allowed then some (s.goto t pc) else none
  | _ => none

/-- Only the owner of the mutex unlocks it or waits. -/
def step (s : State T) : Label T → Option (State T)
  | .lock t => s.start t true (.lock .fast)
  | .unlock t => s.start t ((s.hold t).writes ≠ 0) (.unlock .drop)
  | .wait t => s.start t ((s.hold t).writes ≠ 0) .addWaiter
  | .notifyOne t => s.start t true (.notify 1)
  | .notifyAll t => s.start t true (.notify intMax)
  | .run t answer => s.advance t answer

end State

end Rpcsx.Rx.SharedCV
