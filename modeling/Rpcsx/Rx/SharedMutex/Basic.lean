import Mathlib.Data.Nat.Basic

/-!
# `rx::shared_mutex`

The word holds `c_one` for every writer that has the mutex or waits for it, one for every reader, and
`c_sig` while a release has passed the mutex on and no one has taken it. A call is a sequence of atomic
operations on the word: its place says which one is next, and `Turn` is what that operation does. The
loads of the spin in front of a futex wait change nothing and are left out.
-/

namespace Rpcsx.Rx.SharedMutex

def c_one : Nat := 0x4000

def c_sig : Nat := 0x40000000

def c_err : Nat := 0x80000000

def add (a b : Nat) : Nat := (a + b) % 0x100000000

def sub (a b : Nat) : Nat := (a + (0x100000000 - b)) % 0x100000000

def signalled (value : Nat) : Bool := value &&& c_sig ≠ 0

/-- How a call goes on after an operation. -/
inductive Flow (P : Type)
  | goto (pc : P)
  | done
  /-- The call returns `false`, or `impl_wait` was interrupted. -/
  | fail
  /-- `rx::die` -/
  | die
  deriving DecidableEq

inductive Effect
  | keep | addRead | addWrite | dropRead | dropWrite | upgrade | downgrade
  deriving DecidableEq

inductive Signal
  | keep | take | give
  deriving DecidableEq

/-- An atomic operation: the word after it and how the call goes on. The last two fields are ghosts. -/
structure Turn (P : Type) where
  value : Nat
  flow : Flow P
  effect : Effect := .keep
  signal : Signal := .keep

def Flow.map {P Q : Type} (f : P → Q) : Flow P → Flow Q
  | .goto pc => .goto (f pc)
  | .done => .done
  | .fail => .fail
  | .die => .die

def Turn.map {P Q : Type} (f : P → Q) (turn : Turn P) : Turn Q :=
  { turn with flow := turn.flow.map f }

/-! ## `impl_wait` -/

/-- Before the `fetch_op`, or asleep. -/
inductive WaitPc
  | check
  | sleep (old : Nat)
  deriving DecidableEq

/-- A sleep may end at any time, `interrupted` or not. -/
def implWait (value : Nat) (interrupted : Bool) : WaitPc → Turn WaitPc
  | .check =>
    if value ≥ c_sig then
      { value := sub value c_sig, flow := .done, effect := .addWrite, signal := .take }
    else { value, flow := .goto (.sleep value) }
  | .sleep _ => { value, flow := if interrupted then .fail else .goto .check }

def waitLoop (value : Nat) (interrupted : Bool) (pc : WaitPc) : Turn WaitPc :=
  let turn := implWait value interrupted pc
  match turn.flow with
  | .fail => { turn with flow := .goto .check }
  | _ => turn

/-! ## `lock`, `try_lock` and `unlock` -/

inductive LockPc
  | fast
  | steal (val : Nat)
  | spin (i : Nat)
  | spinTry (i : Nat)
  | spinSteal (i old : Nat)
  | add
  | wait (pc : WaitPc)
  deriving DecidableEq

def LockPc.spinNext (i : Nat) : LockPc := if i < 10 then .spin i else .add

def implLock (value val : Nat) : Turn LockPc :=
  if val ≥ c_err then { value, flow := .die }
  else if signalled val then { value, flow := .goto (.steal val) }
  else { value, flow := .goto (.spin 0) }

def tryLock (value : Nat) : Turn LockPc :=
  if value = 0 then { value := c_one, flow := .done, effect := .addWrite }
  else { value, flow := .fail }

def stealWrite (value expected : Nat) (next : LockPc) : Turn LockPc :=
  if value = expected then
    { value := add (sub expected c_sig) c_one, flow := .done, effect := .addWrite, signal := .take }
  else { value, flow := .goto next }

def lock (value : Nat) (interrupted : Bool) : LockPc → Turn LockPc
  | .fast =>
    let turn := tryLock value
    match turn.flow with
    | .fail => implLock value value
    | _ => turn
  | .steal val => stealWrite value val (.spin 0)
  | .spin i =>
    if value = 0 then { value, flow := .goto (.spinTry i) }
    else if signalled value then { value, flow := .goto (.spinSteal i value) }
    else { value, flow := .goto (.spinNext (i + 1)) }
  | .spinTry i =>
    let turn := tryLock value
    match turn.flow with
    | .fail => { turn with flow := .goto (.spinNext (i + 1)) }
    | _ => turn
  | .spinSteal i old => stealWrite value old (.spinNext (i + 1))
  | .add =>
    if value = 0 then { value := add value c_one, flow := .done, effect := .addWrite }
    else if value % c_sig + c_one ≥ c_sig then { value := add value c_one, flow := .die }
    else { value := add value c_one, flow := .goto (.wait .check) }
  | .wait pc => (waitLoop value interrupted pc).map .wait

/-- The next operation of `unlock` or `unlock_shared`: the release, or `impl_signal`. -/
inductive UnlockPc
  | drop
  | signal
  deriving DecidableEq

def implSignal (value : Nat) : Turn UnlockPc :=
  { value := add value c_sig, flow := .done, signal := .give }

def implUnlock (old : Nat) : Flow UnlockPc :=
  if sub old c_one ≥ c_err then .die
  else if sub old c_one ≠ 0 then .goto .signal
  else .done

def unlock (value : Nat) : UnlockPc → Turn UnlockPc
  | .drop =>
    { value := sub value c_one
      flow := if value ≠ c_one then implUnlock value else .done
      effect := .dropWrite }
  | .signal => implSignal value

/-! ## `lock_shared`, `try_lock_shared` and `unlock_shared` -/

inductive TryPc
  | load
  | exchange (value : Nat)
  deriving DecidableEq

def tryLockShared (value : Nat) : TryPc → Turn TryPc
  | .load => { value, flow := if value < c_one - 1 then .goto (.exchange value) else .fail }
  | .exchange old =>
    if value = old then { value := add old 1, flow := .done, effect := .addRead }
    else { value, flow := .fail }

inductive SharedPc
  | fast (pc : TryPc)
  | steal (val : Nat)
  | spin (i : Nat) (pc : TryPc)
  | spinLoad (i : Nat)
  | spinSteal (i old : Nat)
  | add
  | wait (pc : WaitPc)
  | downgrade
  deriving DecidableEq

def SharedPc.spinNext (i : Nat) : SharedPc := if i < 10 then .spin i .load else .add

def implLockShared (value val : Nat) : Turn SharedPc :=
  if val ≥ c_err then { value, flow := .die }
  else if signalled val then { value, flow := .goto (.steal val) }
  else { value, flow := .goto (.spin 0 .load) }

def stealRead (value expected : Nat) (next : SharedPc) : Turn SharedPc :=
  if value = expected then
    { value := add (sub expected c_sig) 1, flow := .done, effect := .addRead, signal := .take }
  else { value, flow := .goto next }

def lockDowngrade {P : Type} (value : Nat) : Turn P :=
  { value := sub value (c_one - 1), flow := .done, effect := .downgrade }

/-- The value that `lock_shared` has loaded, which it passes on when its exchange fails. -/
def TryPc.loaded (value : Nat) : TryPc → Nat
  | .load => value
  | .exchange old => old

def lockShared (value : Nat) (interrupted : Bool) : SharedPc → Turn SharedPc
  | .fast pc =>
    let turn := tryLockShared value pc
    match turn.flow with
    | .fail => implLockShared value (add (pc.loaded value) 1)
    | _ => turn.map .fast
  | .steal val => stealRead value val (.spin 0 .load)
  | .spin i pc =>
    let turn := tryLockShared value pc
    match turn.flow with
    | .fail => { value, flow := .goto (.spinLoad i) }
    | _ => turn.map (.spin i)
  | .spinLoad i =>
    if signalled value then { value, flow := .goto (.spinSteal i value) }
    else { value, flow := .goto (.spinNext (i + 1)) }
  | .spinSteal i old => stealRead value old (.spinNext (i + 1))
  | .add =>
    if value = 0 then { value := add value c_one, flow := .goto .downgrade, effect := .addWrite }
    else if value % c_sig + c_one ≥ c_sig then { value := add value c_one, flow := .die }
    else { value := add value c_one, flow := .goto (.wait .check) }
  | .wait pc =>
    let turn := waitLoop value interrupted pc
    match turn.flow with
    | .done => { turn.map SharedPc.wait with flow := .goto .downgrade }
    | _ => turn.map .wait
  | .downgrade => lockDowngrade value

def implUnlockShared (old : Nat) : Flow UnlockPc :=
  if sub old 1 ≥ c_err then .die
  else if sub old 1 % c_one = 0 then .goto .signal
  else .done

def unlockShared (value : Nat) : UnlockPc → Turn UnlockPc
  | .drop =>
    { value := sub value 1
      flow := if value ≥ c_one then implUnlockShared value else .done
      effect := .dropRead }
  | .signal => implSignal value

/-! ## `lock_upgrade` -/

def tryLockUpgrade (value : Nat) : TryPc → Turn TryPc
  | .load => { value, flow := if add value (c_one - 1) % c_one = 0 then .goto (.exchange value) else .fail }
  | .exchange old =>
    if value = old then { value := add old (c_one - 1), flow := .done, effect := .upgrade }
    else { value, flow := .fail }

/-- The next operation of `lock_upgrade`, which tries once, and ten times again in
`impl_lock_upgrade`. -/
inductive UpgradePc
  | tries (i : Nat) (pc : TryPc)
  | convert
  | wait (pc : WaitPc)
  deriving DecidableEq

def lockUpgrade (value : Nat) (interrupted : Bool) : UpgradePc → Turn UpgradePc
  | .tries i pc =>
    let turn := tryLockUpgrade value pc
    match turn.flow with
    | .fail => { value, flow := .goto (if i < 10 then .tries (i + 1) .load else .convert) }
    | _ => turn.map (.tries i)
  | .convert =>
    let next := add value (c_one - 1)
    if value % c_sig + c_one - 1 ≥ c_sig then { value := next, flow := .die }
    else if value % c_one = 1 then { value := next, flow := .done, effect := .upgrade }
    else { value := next, flow := .goto (.wait .check), effect := .dropRead }
  | .wait pc => (waitLoop value interrupted pc).map .wait

end Rpcsx.Rx.SharedMutex
