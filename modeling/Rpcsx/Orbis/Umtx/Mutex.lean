import Rpcsx.Orbis.Umtx.Chain

/-!
# User-space mutexes

`do_lock_normal`, `do_unlock_normal` and `umtx_wake_umutex` on process-private mutexes of one chain,
with the guest's own exchanges of the owner word in between. One step of a thread in the kernel ends
with its next access to an owner word; the chain is touched only under the chain's mutex, and a thread
that goes to sleep in `cv.wait` gives that up. The owner word is the number of its 32 bits, so the
owner is what is below the contested bit.
-/

namespace Rpcsx.Orbis.Umtx

open Function

def kUmutexContested : Nat := 0x80000000

def ownerOf (word : Nat) : Nat := word % kUmutexContested

def mark (word : Nat) : Nat := word % kUmutexContested + kUmutexContested

def Contested (word : Nat) : Prop := kUmutexContested ≤ word

instance (word : Nat) : Decidable (Contested word) := inferInstanceAs (Decidable (_ ≤ _))

/-- The thread ids: different, positive numbers of type `int`. -/
structure Tids (T : Type) where
  tid : T → Nat
  pos : ∀ t, 0 < tid t
  lt : ∀ t, tid t < kUmutexContested
  inj : ∀ t t', tid t = tid t' → t = t'

inductive Mode
  | lock | try_ | wait
  deriving DecidableEq

structure LockCall (M : Type) where
  m : M
  errorCheck : Bool
  mode : Mode

inductive Pc (M : Type)
  /-- In the guest, with the result of its last call. -/
  | done (result : Option ErrorCode)
  | lockEnter (c : LockCall M)
  /-- At the top of the loop of `do_lock_normal`. -/
  | lockLoop (c : LockCall M) (error : Option ErrorCode)
  /-- Before the exchange of a contested, free word. -/
  | lockContested (c : LockCall M) (error : Option ErrorCode)
  /-- The mutex is owned. -/
  | lockBusy (c : LockCall M) (error : Option ErrorCode) (owner : Nat)
  /-- In the queue, before the exchange that sets the contested bit. -/
  | lockMark (c : LockCall M) (owner node : Nat)
  | lockSleep (c : LockCall M) (node : Nat)
  | lockWoken (c : LockCall M) (error : Option ErrorCode) (node : Nat)
  | unlockEnter (m : M)
  | unlockLoad (m : M)
  | unlockFast (m : M) (owner : Nat)
  | unlockCas (m : M) (owner : Nat)
  | unlockNotify (m : M) (ok : Bool)
  | wakeEnter (m : M)
  | wakeLoad (m : M)
  | wakeCas (m : M) (count : Nat)
  | wakeNotify (m : M) (count owner : Nat)

def Pc.inside {M : Type} : Pc M → Bool
  | .done _ | .lockEnter _ | .lockSleep _ _ | .unlockEnter _ | .wakeEnter _ => false
  | _ => true

/-- The mutexes of a chain and the threads. `holds` is a ghost: the thread has taken the mutex, and has
not released it. -/
structure Mutexes (M T : Type) where
  owner : M → Nat
  chain : UmtxChain M T
  holder : Option T
  pc : T → Pc M
  holds : T → M → Bool

namespace Mutexes

variable {M T : Type} [DecidableEq M] [DecidableEq T]

def init : Mutexes M T := ⟨fun _ => 0, .empty, none, fun _ => .done none, fun _ _ => false⟩

def goto (s : Mutexes M T) (t : T) (pc : Pc M) : Mutexes M T :=
  { s with pc := update s.pc t pc }

def leave (s : Mutexes M T) (t : T) (result : Option ErrorCode) : Mutexes M T :=
  { s with holder := none, pc := update s.pc t (.done result) }

def enter (s : Mutexes M T) (t : T) (pc : Pc M) : Option (Mutexes M T) :=
  if s.holder = none then some { s with holder := some t, pc := update s.pc t pc } else none

def store (s : Mutexes M T) (m : M) (word : Nat) : Mutexes M T :=
  { s with owner := update s.owner m word }

def setHolds (s : Mutexes M T) (t : T) (m : M) (value : Bool) : Mutexes M T :=
  { s with holds := update s.holds t (update (s.holds t) m value) }

variable (tids : Tids T)

/-- The next step of a thread in the kernel; a sleeper has none of its own. -/
def advance (s : Mutexes M T) (t : T) : Option (Mutexes M T) :=
  match s.pc t with
  | .done _ | .lockSleep _ _ => none
  | .lockEnter c => s.enter t (.lockLoop c none)
  | .lockLoop c error =>
    let owner := s.owner c.m
    if c.mode = .wait then
      if owner = 0 ∨ owner = kUmutexContested then some (s.leave t none)
      else some (s.goto t (.lockBusy c error owner))
    else if owner = 0 then
      some (((s.store c.m (tids.tid t)).setHolds t c.m true).leave t none)
    else if owner = kUmutexContested then some (s.goto t (.lockContested c error))
    else some (s.goto t (.lockBusy c error owner))
  | .lockContested c error =>
    if s.owner c.m = kUmutexContested then
      some (((s.store c.m (mark (tids.tid t))).setHolds t c.m true).leave t none)
    else some (s.goto t (.lockLoop c error))
  | .lockBusy c error owner =>
    if c.errorCheck = true ∧ ownerOf owner = tids.tid t then some (s.leave t (some .DEADLK))
    else if c.mode = .try_ then some (s.leave t (some .BUSY))
    else if error ≠ none then some (s.leave t error)
    else
      let (chain, node) := s.chain.enqueue c.m t
      some ({ s with chain }.goto t (.lockMark c owner node))
  | .lockMark c owner node =>
    if s.owner c.m = owner then
      some { (s.store c.m (mark owner)).goto t (.lockSleep c node) with holder := none }
    else
      let chain := if s.chain.thr node = some t then s.chain.erase node else s.chain
      some ({ s with chain }.goto t (.lockLoop c none))
  | .lockWoken c error node =>
    let own := s.chain.thr node = some t
    let error := if error = none ∧ own ∧ s.owner c.m ≠ 0 then some .TIMEDOUT else error
    let chain := if own then s.chain.erase node else s.chain
    some ({ s with chain }.goto t (.lockLoop c error))
  | .unlockEnter m => s.enter t (.unlockLoad m)
  | .unlockLoad m =>
    let owner := s.owner m
    if ownerOf owner ≠ tids.tid t then some (s.leave t (some .PERM))
    else if Contested owner then some (s.goto t (.unlockCas m owner))
    else some (s.goto t (.unlockFast m owner))
  | .unlockFast m owner =>
    if s.owner m = owner then some (((s.store m 0).setHolds t m false).leave t none)
    else some (s.goto t (.unlockCas m (s.owner m)))
  | .unlockCas m owner =>
    let word := if s.chain.count m ≤ 1 then 0 else kUmutexContested
    if s.owner m = owner then
      some (((s.store m word).setHolds t m false).goto t (.unlockNotify m true))
    else some (s.goto t (.unlockNotify m false))
  | .unlockNotify m ok =>
    some ({ s with chain := s.chain.notifyOne m }.leave t (if ok then none else some .INVAL))
  | .wakeEnter m => s.enter t (.wakeLoad m)
  | .wakeLoad m =>
    let owner := s.owner m
    let count := s.chain.count m
    if ownerOf owner ≠ 0 then some (s.leave t none)
    else if count ≤ 1 then some (s.goto t (.wakeCas m count))
    else some (s.goto t (.wakeNotify m count owner))
  | .wakeCas m count =>
    if s.owner m = kUmutexContested then
      some ((s.store m 0).goto t (.wakeNotify m count kUmutexContested))
    else some (s.goto t (.wakeNotify m count (s.owner m)))
  | .wakeNotify m count owner =>
    let chain := if count ≠ 0 ∧ ownerOf owner = 0 then s.chain.notifyOne m else s.chain
    some ({ s with chain }.leave t none)

inductive Label (M T : Type)
  | lock (t : T) (c : LockCall M)
  | unlock (t : T) (m : M)
  | wakeUmutex (t : T) (m : M)
  /-- A thread in the kernel makes its next step. -/
  | run (t : T)
  /-- A sleep ends, with any result. -/
  | wake (t : T) (result : Option ErrorCode)
  /-- The guest exchanges 0 for its thread id. -/
  | guestLock (t : T) (m : M)
  /-- The guest exchanges its thread id for 0. -/
  | guestUnlock (t : T) (m : M)

def fromGuest (s : Mutexes M T) (t : T) (s' : Mutexes M T) : Option (Mutexes M T) :=
  match s.pc t with
  | .done _ => some s'
  | _ => none

def step (s : Mutexes M T) : Label M T → Option (Mutexes M T)
  | .lock t c => s.fromGuest t (s.goto t (.lockEnter c))
  | .unlock t m => s.fromGuest t (s.goto t (.unlockEnter m))
  | .wakeUmutex t m => s.fromGuest t (s.goto t (.wakeEnter m))
  | .run t => s.advance tids t
  | .wake t result =>
    match s.pc t with
    | .lockSleep c node => s.enter t (.lockWoken c result node)
    | _ => none
  | .guestLock t m =>
    s.fromGuest t
      (if s.owner m = 0 then (s.store m (tids.tid t)).setHolds t m true else s)
  | .guestUnlock t m =>
    s.fromGuest t
      (if s.owner m = tids.tid t then (s.store m 0).setHolds t m false else s)

end Mutexes

end Rpcsx.Orbis.Umtx
