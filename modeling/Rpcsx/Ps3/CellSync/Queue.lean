import Mathlib.Data.Nat.ModEq
import Rpcsx.Lib.Run
import Rpcsx.Lib.Tally

/-!
# Queues

`CellSyncQueue`: a ring of slots with a control word that holds the next slot to be written, the
number of elements, and a bit each for a call that copies in and one that copies out. A call begins
with an operation on the control word, copies one element, and ends with another operation. Beside
the queue stand the elements that a caller would say it holds, from the end of their push to the
begin of their pop, and what became of all of them.
-/

namespace Rpcsx.Ps3.CellSync

open Lib

/-! ## The control word -/

/-- `CellSyncQueue::ctrl_t`: two numbers of 24 bits and two of 8 bits. -/
structure QueueCtrl where
  next : Nat
  count : Nat
  pop : Nat
  push : Nat
  deriving DecidableEq

namespace QueueCtrl

/-- `try_push_begin`: the word and the position; `none` is `false`, with the word unchanged. -/
def tryPushBegin (ctrl : QueueCtrl) (depth : Nat) : Option (QueueCtrl × Nat) :=
  if ctrl.push ≠ 0 ∨ depth ≤ ctrl.count + ctrl.pop then none
  else
    let position := ctrl.next
    some ({ ctrl with
      next := (if position + 1 ≠ depth then position + 1 else 0) % 0x1000000
      count := (ctrl.count + 1) % 0x1000000
      push := 1 }, position)

def pushEnd (ctrl : QueueCtrl) : QueueCtrl := { ctrl with push := 0 }

def oldest (ctrl : QueueCtrl) (depth : Nat) : Nat :=
  (ctrl.next + depth + 0x100000000 - ctrl.count) % 0x100000000

def tryPopBegin (ctrl : QueueCtrl) (depth : Nat) : Option (QueueCtrl × Nat) :=
  if ctrl.pop ≠ 0 ∨ ctrl.count ≤ ctrl.push then none
  else some ({ ctrl with count := ctrl.count - 1, pop := 1 }, ctrl.oldest depth)

def tryPeekBegin (ctrl : QueueCtrl) (depth : Nat) : Option (QueueCtrl × Nat) :=
  if ctrl.pop ≠ 0 ∨ ctrl.count ≤ ctrl.push then none
  else some ({ ctrl with pop := 1 }, ctrl.oldest depth)

def popEnd (ctrl : QueueCtrl) : QueueCtrl := { ctrl with pop := 0 }

def tryClearBegin1 (ctrl : QueueCtrl) : Option QueueCtrl :=
  if ctrl.pop ≠ 0 then none else some { ctrl with pop := 1 }

def tryClearBegin2 (ctrl : QueueCtrl) : Option QueueCtrl :=
  if ctrl.push ≠ 0 then none else some { ctrl with push := 1 }

def checkDepth (ctrl : QueueCtrl) (depth : Nat) : Bool := ctrl.next ≤ depth ∧ ctrl.count ≤ depth

end QueueCtrl

/-! ## Calls -/

inductive Take
  | pop | peek
  deriving DecidableEq

/-- Where a thread is. A thread that copies out has beside it the element that was the first one when
it began, which is what it ought to get. -/
inductive QueuePc (α : Type)
  | idle
  | push (v : α) (position : Nat)
  | pushed (v : α)
  | take (kind : Take) (position : Nat) (want : Option α)
  | taken (kind : Take) (want : Option α) (got : α)
  | clear1
  | clear2

/-- A queue and the threads that use it: the elements whose push has ended and whose pop has not
begun, all elements whose push has ended, those that have gone since with whether they were popped,
and what the pops have returned. -/
structure QueueState (T α : Type) where
  ctrl : QueueCtrl
  slots : Nat → α
  pc : T → QueuePc α
  broken : Bool
  elems : List α
  pushed : List α
  gone : List (Bool × α)
  returned : List α

/-- One step of a thread: an operation on the control word, or the copy of an element. -/
inductive QueueCall (T α : Type)
  | check (t : T)
  | pushBegin (t : T) (v : α)
  | pushCopy (t : T)
  | pushEnd (t : T)
  | takeBegin (t : T) (kind : Take)
  | takeCopy (t : T)
  | takeEnd (t : T)
  | clearBegin1 (t : T)
  | clearBegin2 (t : T)
  | clearStop (t : T)
  | clearStore (t : T)
  | size (t : T)

namespace QueueState

variable {T α : Type} [DecidableEq T]

def init (slots : Nat → α) : QueueState T α :=
  ⟨⟨0, 0, 0, 0⟩, slots, fun _ => .idle, false, [], [], [], []⟩

def goto (s : QueueState T α) (t : T) (pc : QueuePc α) : QueueState T α :=
  { s with pc := Function.update s.pc t pc }

def step (depth : Nat) (s : QueueState T α) : QueueCall T α → Option (QueueState T α)
  | .check t =>
    match s.pc t with
    | .idle => some { s with broken := s.broken || !s.ctrl.checkDepth depth }
    | _ => none
  | .pushBegin t v =>
    match s.pc t with
    | .idle =>
      match s.ctrl.tryPushBegin depth with
      | none => some s
      | some (ctrl, position) => some ({ s with ctrl }.goto t (.push v position))
    | _ => none
  | .pushCopy t =>
    match s.pc t with
    | .push v position =>
      some ({ s with slots := Function.update s.slots position v }.goto t (.pushed v))
    | _ => none
  | .pushEnd t =>
    match s.pc t with
    | .pushed v =>
      some ({ s with
        ctrl := s.ctrl.pushEnd
        elems := s.elems ++ [v]
        pushed := s.pushed ++ [v] }.goto t .idle)
    | _ => none
  | .takeBegin t .pop =>
    match s.pc t with
    | .idle =>
      match s.ctrl.tryPopBegin depth with
      | none => some s
      | some (ctrl, position) =>
        some ({ s with
          ctrl
          elems := s.elems.tail
          gone := s.gone ++ (s.elems.take 1).map (true, ·) }.goto t
            (.take .pop position s.elems.head?))
    | _ => none
  | .takeBegin t .peek =>
    match s.pc t with
    | .idle =>
      match s.ctrl.tryPeekBegin depth with
      | none => some s
      | some (ctrl, position) => some ({ s with ctrl }.goto t (.take .peek position s.elems.head?))
    | _ => none
  | .takeCopy t =>
    match s.pc t with
    | .take kind position want => some (s.goto t (.taken kind want (s.slots (position % depth))))
    | _ => none
  | .takeEnd t =>
    match s.pc t with
    | .taken kind _ got =>
      some ({ s with
        ctrl := s.ctrl.popEnd
        returned := if kind = Take.pop then s.returned ++ [got] else s.returned }.goto t .idle)
    | _ => none
  | .clearBegin1 t =>
    match s.pc t with
    | .idle =>
      match s.ctrl.tryClearBegin1 with
      | none => some s
      | some ctrl => some ({ s with ctrl }.goto t .clear1)
    | _ => none
  | .clearBegin2 t =>
    match s.pc t with
    | .clear1 =>
      match s.ctrl.tryClearBegin2 with
      | none => some s
      | some ctrl => some ({ s with ctrl }.goto t .clear2)
    | _ => none
  | .clearStop t =>
    match s.pc t with
    -- the bit is left as it is
    | .clear1 => some (s.goto t .idle)
    | _ => none
  | .clearStore t =>
    match s.pc t with
    | .clear2 =>
      some ({ s with
        ctrl := ⟨0, 0, 0, 0⟩
        elems := []
        gone := s.gone ++ s.elems.map (false, ·) }.goto t .idle)
    | _ => none
  | .size t =>
    match s.pc t with
    | .idle => some s
    | _ => none

end QueueState

end Rpcsx.Ps3.CellSync
