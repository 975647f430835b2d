import Rpcsx.Orbis.Basic

/-!
# Event flags

`orbis::EventFlag`. Every call takes `queueMtx` for all it does, except that a wait gives it up while
it sleeps in `sync_cv.wait`; so a step is one critical section: a wait up to its return or its sleep,
a sleeper that wakes up, again up to its return or its next sleep, or one of the other calls. The
condition variable may end a sleep at any time and with any result.
-/

namespace Rpcsx.Orbis.Evf

abbrev Word := BitVec 64

def kEvfAttrSingle : BitVec 8 := 0x10

def kEvfWaitModeAnd : BitVec 8 := 0x01

def kEvfWaitModeClearAll : BitVec 8 := 0x10

def kEvfWaitModeClearPat : BitVec 8 := 0x20

structure WaitingThread (T : Type) where
  thread : T
  bitPattern : Word
  waitMode : BitVec 8
  deriving DecidableEq

namespace WaitingThread

variable {T : Type}

def test (w : WaitingThread T) (value : Word) : Bool :=
  if w.waitMode &&& kEvfWaitModeAnd ≠ 0 then value &&& w.bitPattern = w.bitPattern
  else value &&& w.bitPattern ≠ 0

def applyClear (w : WaitingThread T) (value : Word) : Word :=
  if w.waitMode &&& kEvfWaitModeClearAll ≠ 0 then 0
  else if w.waitMode &&& kEvfWaitModeClearPat ≠ 0 then value &&& ~~~w.bitPattern
  else value

end WaitingThread

structure EventFlag (T : Type) where
  isDeleted : Bool
  attrs : BitVec 8
  value : Word
  waitingThreads : List (WaitingThread T)

structure Call where
  waitMode : BitVec 8
  bitPattern : Word
  fullTimeout : Option Nat

/-- What a thread has of its own: the two fields that the flag uses, the wait it sleeps in, and, as a
ghost, how often the clear of its current or last wait was applied to the value. -/
structure Thread where
  evfResultPattern : Word
  evfIsCancelled : Word
  call : Option Call
  applied : Nat

/-- A wait that returned: the result, and how often its clear was applied. -/
structure Returned (T : Type) where
  thread : T
  result : Option ErrorCode
  applied : Nat
  deriving DecidableEq

inductive CvResult
  | success | timeout | interrupted
  deriving DecidableEq

def CvResult.toErrorCode : CvResult → Option ErrorCode
  | .success => none
  | .timeout => some .TIMEDOUT
  | .interrupted => some .INTR

section Calls

variable {T : Type} [DecidableEq T]

/-! ## The calls -/

/-- One turn of the loop of `EventFlag::wait`, up to a return (with its result) or the sleep. -/
def waitTurn (flag : EventFlag T) (thread : Thread) (waitingThread : WaitingThread T)
    (timeout : Option Nat) (result : Option ErrorCode) : EventFlag T × Thread × Option (Option ErrorCode) :=
  if flag.isDeleted then
    let thread :=
      if thread.evfIsCancelled = -1 then { thread with evfResultPattern := flag.value } else thread
    (flag, thread, some (some .ACCES))
  else if thread.evfIsCancelled = 1 then (flag, thread, some (some .CANCELED))
  else if thread.evfIsCancelled = 0 then (flag, thread, some result)
  else
    let thread := { thread with evfResultPattern := 0, evfIsCancelled := -1 }
    if waitingThread.test flag.value then
      ({ flag with value := waitingThread.applyClear flag.value },
        { thread with evfResultPattern := flag.value, applied := thread.applied + 1 }, some result)
    else if timeout = some 0 then
      (flag, { thread with evfResultPattern := flag.value }, some (some .TIMEDOUT))
    else if flag.attrs &&& kEvfAttrSingle ≠ 0 ∧ flag.waitingThreads ≠ [] then
      (flag, thread, some (some .PERM))
    else
      ({ flag with waitingThreads := flag.waitingThreads ++ [waitingThread] }, thread, none)

def tryWait (flag : EventFlag T) (thread : Thread) (waitingThread : WaitingThread T) :
    EventFlag T × Thread × Option ErrorCode :=
  if flag.isDeleted then (flag, thread, some .ACCES)
  else if waitingThread.test flag.value then
    ({ flag with value := waitingThread.applyClear flag.value },
      { thread with evfResultPattern := flag.value }, none)
  else (flag, thread, some .BUSY)

inductive NotifyType
  | Set | Cancel | Destroy
  deriving DecidableEq

/-- The `erase_if` of `EventFlag::notify`: the threads that stay in the queue, the value, and the
threads. -/
def notifyLoop (type : NotifyType) (patValue : Word) (threads : T → Thread) :
    List (WaitingThread T) → List (WaitingThread T) × Word × (T → Thread)
  | [] => ([], patValue, threads)
  | w :: rest =>
    if type = .Set ∧ w.test patValue = false then
      let (kept, out) := notifyLoop type patValue threads rest
      (w :: kept, out)
    else
      let thread := threads w.thread
      let thread := { thread with
        evfResultPattern := patValue
        evfIsCancelled := if type = .Cancel then 1 else 0
        applied := if type = .Set then thread.applied + 1 else thread.applied }
      notifyLoop type (w.applyClear patValue) (Function.update threads w.thread thread) rest

def notify (flag : EventFlag T) (threads : T → Thread) (type : NotifyType) (bits : Word) :
    EventFlag T × (T → Thread) × Nat :=
  let patValue := if type = .Set then flag.value ||| bits else flag.value
  let (kept, out, threads) := notifyLoop type patValue threads flag.waitingThreads
  ({ flag with
      isDeleted := if type = .Destroy then true else flag.isDeleted
      value := if type = .Cancel then bits else out
      waitingThreads := kept },
    threads, flag.waitingThreads.length - kept.length)

/-! ## Runs -/

structure World (T : Type) where
  flag : EventFlag T
  threads : T → Thread
  returned : List (Returned T)

inductive Label (T : Type)
  | wait (t : T) (waitMode : BitVec 8) (bitPattern : Word) (timeout : Option Nat)
  | wake (t : T) (result : CvResult) (elapsed : Nat)
  | tryWait (t : T) (waitMode : BitVec 8) (bitPattern : Word)
  | set (bits : Word)
  | clear (bits : Word)
  | cancel (value : Word)
  | destroy

def settle (w : World T) (t : T) (call : Call) : EventFlag T × Thread × Option (Option ErrorCode) → World T
  | (flag, thread, none) =>
    { w with flag, threads := Function.update w.threads t { thread with call := some call } }
  | (flag, thread, some result) =>
    { flag, threads := Function.update w.threads t { thread with call := none },
      returned := ⟨t, result, thread.applied⟩ :: w.returned }

def notifyAll (w : World T) (type : NotifyType) (bits : Word) : World T :=
  let (flag, threads, _) := notify w.flag w.threads type bits
  { w with flag, threads }

/-- One critical section; a thread that sleeps calls nothing. -/
def step (w : World T) : Label T → Option (World T)
  | .wait t waitMode bitPattern timeout =>
    match (w.threads t).call with
    | some _ => none
    | none =>
      some (settle w t ⟨waitMode, bitPattern, timeout⟩
        (waitTurn w.flag ⟨0, -1, none, 0⟩ ⟨t, bitPattern, waitMode⟩ timeout none))
  | .wake t result elapsed =>
    match (w.threads t).call with
    | none => none
    | some call =>
      let thread := w.threads t
      let waitingThread : WaitingThread T := ⟨t, call.bitPattern, call.waitMode⟩
      let flag :=
        if thread.evfIsCancelled = -1 then
          { w.flag with waitingThreads := w.flag.waitingThreads.filter (· ≠ waitingThread) }
        else w.flag
      some (settle w t call
        (waitTurn flag thread waitingThread (call.fullTimeout.map (· - elapsed))
          result.toErrorCode))
  | .tryWait t waitMode bitPattern =>
    match (w.threads t).call with
    | some _ => none
    | none =>
      let (flag, thread, _) := tryWait w.flag (w.threads t) ⟨t, bitPattern, waitMode⟩
      some { w with flag, threads := Function.update w.threads t thread }
  | .set bits => some (notifyAll w .Set bits)
  | .clear bits => some { w with flag := { w.flag with value := w.flag.value &&& bits } }
  | .cancel value => some (notifyAll w .Cancel value)
  | .destroy => some (notifyAll w .Destroy 0)

def init (attrs : BitVec 8) (initPattern : Word) : World T :=
  ⟨⟨false, attrs, initPattern, []⟩, fun _ => ⟨0, -1, none, 0⟩, []⟩

end Calls

end Rpcsx.Orbis.Evf
