import Rpcsx.Lib.OrdMap
import Rpcsx.Rx.AddressRange

/-!
# `rx::MemoryTableWithPayload`

The area table of the emulator's memory managers: an ordered map from addresses to markers.
`O` opens an area, `X` closes one, `XO` closes one and opens the next at the same address. The
functions below follow `MemoryTable.hpp` branch by branch; a failed `assert` and a dereference
outside the map are the result `none`.

The payload is stored by value. A marker `X` carries none: the one that `createClose` constructs
is never read, since every access asserts `kind != Kind::X`.
-/

namespace Rpcsx.Rx

open Lib

/-- `Payload<T>`: the marker kinds with the data the open ones own. -/
inductive Payload (T : Type) where
  | o (data : T)
  | x
  | xo (data : T)
  deriving DecidableEq, Repr

namespace Payload

variable {T : Type}

def isOpen : Payload T → Bool
  | .o _ => true
  | _ => false

def isClose : Payload T → Bool
  | .x => true
  | _ => false

def isCloseOpen : Payload T → Bool
  | .xo _ => true
  | _ => false

def get? : Payload T → Option T
  | .o d => some d
  | .x => none
  | .xo d => some d

def setCloseOpen : Payload T → Option (Payload T)
  | .o d => some (.xo d)
  | .x => none
  | .xo d => some (.xo d)

def set (n : Payload T) (data : T) : Option (Payload T) :=
  match n with
  | .o _ => some (.o data)
  | .x => none
  | .xo _ => some (.xo data)

end Payload

structure MemoryTableWithPayload (T : Type) where
  mAreas : OrdMap Nat (Payload T)

/-- An iterator over areas: the key of the area's opening marker, `none` for `end()`. -/
abbrev Iter := Option Nat

namespace MemoryTableWithPayload

variable {T : Type}

@[ext] theorem ext {t t' : MemoryTableWithPayload T} (h : t.mAreas.entries = t'.mAreas.entries) : t = t' := by
  cases t; cases t'; exact congrArg mk (OrdMap.ext h)

instance [DecidableEq T] : DecidableEq (MemoryTableWithPayload T) := fun t t' =>
  decidable_of_iff (t.mAreas = t'.mAreas) ⟨fun h => by cases t; cases t'; cases h; rfl,
    fun h => h ▸ rfl⟩

def empty : MemoryTableWithPayload T := ⟨OrdMap.empty⟩

instance : Inhabited (MemoryTableWithPayload T) := ⟨empty⟩

/-! ## Iterators -/

def begin (t : MemoryTableWithPayload T) : Iter := t.mAreas.first

def get? (t : MemoryTableWithPayload T) (it : Nat) : Option T :=
  (t.mAreas.find? it).bind Payload.get?

def setAt (t : MemoryTableWithPayload T) (it : Nat) (data : T) : Option (MemoryTableWithPayload T) :=
  (t.mAreas.find? it).bind fun n => (n.set data).map fun n' => ⟨t.mAreas.insert it n'⟩

def endAddress? (t : MemoryTableWithPayload T) (it : Nat) : Option Nat := t.mAreas.next it

def range? (t : MemoryTableWithPayload T) (it : Nat) : Option AddressRange :=
  (t.endAddress? it).map (AddressRange.fromBeginEnd it)

/-- `++it`: step over the marker that ends the area, and over that marker itself unless it opens
the next area. -/
def iterNext (t : MemoryTableWithPayload T) (it : Nat) : Iter :=
  match t.mAreas.next it with
  | none => none
  | some k =>
    match t.mAreas.find? k with
    | some (.xo _) => some k
    | _ => t.mAreas.next k

/-- `--it`, from an area or from `end()`. -/
def iterPrev (t : MemoryTableWithPayload T) (it : Iter) : Iter :=
  let prev := match it with
    | none => t.mAreas.entries.getLast?.map Prod.fst
    | some k => t.mAreas.prev k
  match prev with
  | none => none
  | some k =>
    match t.mAreas.find? k with
    | some .x => t.mAreas.prev k
    | _ => some k

/-- The areas from iterator `it` on, as `for (auto block : table)` lists them; `fuel` bounds the
number of steps. -/
def areasFrom (t : MemoryTableWithPayload T) : Nat → Iter → List (AddressRange × T)
  | 0, _ => []
  | _ + 1, none => []
  | fuel + 1, some it =>
    match t.range? it, t.get? it with
    | some r, some d => (r, d) :: t.areasFrom fuel (t.iterNext it)
    | _, _ => []

def areas (t : MemoryTableWithPayload T) : List (AddressRange × T) :=
  t.areasFrom t.mAreas.entries.length t.begin

/-! ## Queries -/

def lowerBound (t : MemoryTableWithPayload T) (address : Nat) : Iter :=
  match t.mAreas.lowerBound address with
  | none => none
  | some k =>
    match t.mAreas.find? k with
    | none => none
    | some n =>
      if k = address then
        if n.isClose then t.mAreas.next k else some k
      else
        if !n.isOpen then t.mAreas.prev k else some k

def queryArea (t : MemoryTableWithPayload T) (address : Nat) : Iter :=
  match t.mAreas.lowerBound address with
  | none => none
  | some k =>
    match t.mAreas.find? k with
    | none => none
    | some n =>
      if k = address then
        if n.isClose then none
        else
          match t.mAreas.next k with
          | none => none
          | some endAddress => if endAddress < address then none else some k
      else
        if n.isOpen then none
        else if k < address then none else t.mAreas.prev k

/-! ## `map` -/

/-- The local variables of `map`. -/
structure MapState (T : Type) where
  areas : OrdMap Nat (Payload T)
  seenOpen : Bool
  endCollision : Bool
  lastRemovedIsOpen : Bool
  lastRemovedOpenPayload : T

def setCloseOpenAt (areas : OrdMap Nat (Payload T)) (k : Nat) : Option (OrdMap Nat (Payload T)) :=
  (areas.find? k).bind fun n => n.setCloseOpen.map fun n' => areas.insert k n'

namespace MapState

def enterBegin (st : MapState T) (b : Nat) (payload : T) : Option (MapState T) :=
  match st.areas.find? b with
  | none => none
  | some .x => some { st with areas := st.areas.insert b (.xo payload) }
  | some (.o d) => some { st with
      areas := st.areas.insert b (.o payload)
      seenOpen := true
      lastRemovedIsOpen := true
      lastRemovedOpenPayload := d }
  | some (.xo d) => some { st with
      areas := st.areas.insert b (.xo payload)
      seenOpen := true
      lastRemovedIsOpen := true
      lastRemovedOpenPayload := d }

def enterEnd (st : MapState T) (e : Nat) : Option (MapState T) :=
  match st.areas.find? e with
  | none => none
  | some (.o d) => some { st with
      areas := st.areas.insert e (.xo d)
      lastRemovedIsOpen := false }
  | some _ => some { st with
      endCollision := true
      lastRemovedIsOpen := false }

def enterInside (st : MapState T) (b : Nat) : Option (MapState T) :=
  if st.areas.first = some b then some st
  else
    match (st.areas.prev b).bind st.areas.find? with
    | none => none
    | some n =>
      match n.get? with
      | none => some st
      | some d =>
        (setCloseOpenAt st.areas b).map fun areas => { st with
          areas := areas
          seenOpen := true
          lastRemovedIsOpen := true
          lastRemovedOpenPayload := d }

/-- The body of the loop over the markers strictly inside the range, without the `erase`. -/
def seeMarker (st : MapState T) (b : Nat) : Payload T → Option (MapState T)
  | .x =>
    if st.seenOpen then some { st with lastRemovedIsOpen := false }
    else
      (setCloseOpenAt st.areas b).map fun areas => { st with
        areas := areas
        lastRemovedIsOpen := false }
  | .o d => some { st with
      seenOpen := true
      lastRemovedIsOpen := true
      lastRemovedOpenPayload := d }
  | .xo d =>
    if st.seenOpen then some { st with
      lastRemovedIsOpen := true
      lastRemovedOpenPayload := d }
    else
      (setCloseOpenAt st.areas b).map fun areas => { st with
        areas := areas
        seenOpen := true
        lastRemovedIsOpen := true
        lastRemovedOpenPayload := d }

/-- The loop `while (beginIt != endIt)`, over the markers that follow `origBegin`. -/
def removeMiddle (b e : Nat) : List (Nat × Payload T) → MapState T → Option (MapState T)
  | [], _ => none
  | (k, n) :: rest, st =>
    if k = e then some st
    else
      match st.seeMarker b n with
      | none => none
      | some st' => removeMiddle b e rest { st' with areas := st'.areas.erase k }

/-- What the end marker becomes once the middle is gone. -/
def sealEnd (st : MapState T) (b e : Nat) : Option (OrdMap Nat (Payload T)) :=
  if st.endCollision && !st.seenOpen then setCloseOpenAt st.areas b
  else if st.lastRemovedIsOpen && !st.endCollision then
    some (st.areas.insert e (.xo st.lastRemovedOpenPayload))
  else some st.areas

end MapState

/-- The left half of the `merge` step: drop the marker at `b` when the area it ends has an equal
payload. Returns the position of the area that now holds the range. -/
def mergeLeft [DecidableEq T] (areas : OrdMap Nat (Payload T)) (b : Nat) : Option (OrdMap Nat (Payload T) × Nat) :=
  match areas.find? b with
  | none => none
  | some (.xo d) =>
    match areas.prev b with
    | none => none
    | some p =>
      match (areas.find? p).bind Payload.get? with
      | none => none
      | some d' => if d' = d then some (areas.erase b, p) else some (areas, b)
  | some _ => some (areas, b)

/-- The right half of the `merge` step. -/
def mergeRight [DecidableEq T] (areas : OrdMap Nat (Payload T)) (orig e : Nat) : Option (OrdMap Nat (Payload T)) :=
  match areas.find? e with
  | none => none
  | some (.xo d) =>
    match (areas.find? orig).bind Payload.get? with
    | none => none
    | some d' => if d = d' then some (areas.erase e) else some areas
  | some _ => some areas

variable [Inhabited T]

def mapEnter (t : MemoryTableWithPayload T) (range : AddressRange) (payload : T) : Option (MapState T) :=
  let b := range.beginAddress
  let e := range.endAddress
  let (areas, beginInserted) := t.mAreas.emplace b (.o payload)
  let (areas, endInserted) := areas.emplace e .x
  let st : MapState T := ⟨areas, false, false, false, default⟩
  if !beginInserted || !endInserted then
    (if beginInserted then some st else st.enterBegin b payload).bind fun st =>
      if endInserted then some st else st.enterEnd e
  else st.enterInside b

/-- The early exit of `map` for `noOverride`: the range is exactly one area already. -/
def mapExists (t : MemoryTableWithPayload T) (range : AddressRange) : Bool :=
  match t.mAreas.find? range.beginAddress with
  | none => false
  | some n => t.mAreas.next range.beginAddress = some range.endAddress && !n.isClose

def mapMarkers (t : MemoryTableWithPayload T) (range : AddressRange) (payload : T) :
    Option (OrdMap Nat (Payload T)) :=
  let b := range.beginAddress
  let e := range.endAddress
  (t.mapEnter range payload).bind fun st =>
    (MapState.removeMiddle b e (st.areas.after b) st).bind fun st => st.sealEnd b e

/-- `map(range, payload, merge, noOverride)`: the new table and the area that holds the range. -/
def map [DecidableEq T] (t : MemoryTableWithPayload T) (range : AddressRange) (payload : T)
    (merge noOverride : Bool) : Option (MemoryTableWithPayload T × Nat) :=
  let b := range.beginAddress
  let e := range.endAddress
  if !range.isValid then none
  else if noOverride && t.mapExists range then some (t, b)
  else
    (t.mapMarkers range payload).bind fun areas =>
      if !merge then some (⟨areas⟩, b)
      else
        (mergeLeft areas b).bind fun (areas, orig) =>
          (mergeRight areas orig e).map fun areas => (⟨areas⟩, orig)

/-! ## `unmap` -/

omit [Inhabited T] in
/-- `unmap(iterator)`: the new table and the position after the removed area. -/
def unmapAt (t : MemoryTableWithPayload T) (openIt : Nat) : Option (MemoryTableWithPayload T × Iter) :=
  match t.mAreas.next openIt, t.mAreas.find? openIt with
  | some closeIt, some n =>
    let areas := if n.isCloseOpen then t.mAreas.insert openIt .x else t.mAreas.erase openIt
    match areas.find? closeIt with
    | none => none
    | some (.xo d) => some (⟨areas.insert closeIt (.o d)⟩, some closeIt)
    | some _ => some (⟨areas.erase closeIt⟩, areas.next closeIt)
  | _, _ => none

def unmap [DecidableEq T] (t : MemoryTableWithPayload T) (range : AddressRange) :
    Option (MemoryTableWithPayload T × Iter) :=
  (t.map range default false false).bind fun (t', it) => t'.unmapAt it

end MemoryTableWithPayload

end Rpcsx.Rx
