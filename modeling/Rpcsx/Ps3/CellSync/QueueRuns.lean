import Rpcsx.Lib.Tape
import Rpcsx.Ps3.CellSync.Queue

/-!
# Runs of a queue

The pushes since the last clear are numbered, and the element of push `k` is in slot `k % depth`. With
`tail` pushes begun, the elements of the queue are those from `tail - count` on, the last of them
being copied in while a push is under way, and the one before them is being copied out while a pop
is. All of these are in different slots, which is what the calls rely on.
-/

namespace Rpcsx.Ps3.CellSync

open Lib Function List Option Nat QueueCtrl QueuePc

/-! ## Slots -/

variable {depth : Nat} {tail : Nat}

/-- The position behind the last one. -/
theorem next_slot (hdepth : 0 < depth) :
    (if tail % depth + 1 ≠ depth then tail % depth + 1 else 0) = (tail + 1) % depth := by
  have hlt := mod_lt tail hdepth
  rw [← mod_add_mod]
  split
  case isTrue hne => exact (mod_eq_of_lt (by omega)).symm
  case isFalse heq => rw [not_not.mp heq, mod_self]

theorem QueueCtrl.oldest_mod {ctrl : QueueCtrl} (hdepth : 0 < depth) (hsmall : depth < 0x1000000)
    (hnext : ctrl.next = tail % depth) (hcount : ctrl.count ≤ depth) (htail : ctrl.count ≤ tail) :
    ctrl.oldest depth % depth = (tail - ctrl.count) % depth := by
  have hlt := mod_lt tail hdepth
  have hword : ctrl.oldest depth = tail % depth + (depth - ctrl.count) := by
    rw [oldest, hnext]
    omega
  have hsum : tail + (depth - ctrl.count) = tail - ctrl.count + depth := by omega
  rw [hword, mod_add_mod, hsum, add_mod_right]

/-! ## The invariant -/

namespace QueuePc

variable {α : Type}

def holdsPush : QueuePc α → Nat
  | .push _ _ | .pushed _ | .clear2 => 1
  | _ => 0

def holdsPop : QueuePc α → Nat
  | .take _ _ _ | .taken _ _ _ | .clear1 | .clear2 => 1
  | _ => 0

def adds : QueuePc α → Nat
  | .push _ _ | .pushed _ => 1
  | _ => 0

def leaves : QueuePc α → Nat
  | .take .pop _ _ | .taken .pop _ _ => 1
  | _ => 0

def Fits (depth tail count : Nat) (slots : Nat → α) (elems pending : List α) : QueuePc α → Prop
  | .idle | .clear1 | .clear2 => True
  | .push _ position => position = (tail - 1) % depth ∧ 0 < count
  | .pushed v => slots ((tail - 1) % depth) = v ∧ 0 < count
  | .take .pop position want => ∃ v, want = some v ∧ pending = [v] ∧ count < tail ∧
      position % depth = (tail - count - 1) % depth ∧ slots ((tail - count - 1) % depth) = v
  | .take .peek position want => ∃ v, want = some v ∧ elems.head? = some v ∧
      position % depth = (tail - count) % depth
  | .taken .pop want got => want = some got ∧ pending = [got]
  | .taken .peek want got => want = some got ∧ elems.head? = some got

section

variable {depth tail count : Nat} {slots : Nat → α} {elems pending : List α} {pc : QueuePc α}
  (h : pc.Fits depth tail count slots elems pending) (hnone : pc.holdsPush = 0)

include h hnone

/-- The elements before that of a push stay. -/
theorem Fits.keep {slots' : Nat → α} {elems' : List α} (hslot : ∀ v, pending = [v] → count < tail →
      slots' ((tail - count - 1) % depth) = slots ((tail - count - 1) % depth))
    (hhead : ∀ v, elems.head? = some v → elems'.head? = some v) :
    pc.Fits depth tail count slots' elems' pending := by
  cases pc with
  | idle | clear1 => trivial
  | push _ _ | pushed _ | clear2 => cases hnone
  | take kind position want =>
    cases kind with
    | pop =>
      obtain ⟨v, hwant, hpending, hlt, hpos, hat⟩ := h
      exact ⟨v, hwant, hpending, hlt, hpos, (hslot v hpending hlt).trans hat⟩
    | peek =>
      obtain ⟨v, hwant, hv, hpos⟩ := h
      exact ⟨v, hwant, hhead v hv, hpos⟩
  | taken kind want got =>
    cases kind with
    | pop => exact h
    | peek => exact ⟨h.1, hhead got h.2⟩

/-- A push that begins moves no element. -/
theorem Fits.shift (hle : count ≤ tail) : pc.Fits depth (tail + 1) (count + 1) slots elems pending := by
  have hsub : tail + 1 - (count + 1) = tail - count := by omega
  cases pc with
  | idle | clear1 => trivial
  | push _ _ | pushed _ | clear2 => cases hnone
  | take kind position want =>
    cases kind with
    | pop =>
      obtain ⟨v, hwant, hpending, hlt, hpos, hslot⟩ := h
      refine ⟨v, hwant, hpending, by omega, ?_, ?_⟩
      · rwa [hsub]
      · rwa [hsub]
    | peek =>
      obtain ⟨v, hwant, hhead, hpos⟩ := h
      exact ⟨v, hwant, hhead, by rwa [hsub]⟩
  | taken kind want got => cases kind <;> exact h

end

end QueuePc

namespace QueueState

variable {T α : Type} [DecidableEq T] [Fintype T]

/-- `tail` pushes have begun, `left` clears were given up with their bit set, and `pending` is what
the pop under way has to return. -/
structure Inv (depth : Nat) (s : QueueState T α) (tail left : Nat) (pending : List α) : Prop where
  next : s.ctrl.next = tail % depth
  count_le : s.ctrl.count ≤ tail
  push : s.ctrl.push = tally QueuePc.holdsPush s.pc
  push_le : s.ctrl.push ≤ 1
  pop : s.ctrl.pop = tally QueuePc.holdsPop s.pc + left
  pop_le : s.ctrl.pop ≤ 1
  room : s.ctrl.count + tally QueuePc.leaves s.pc ≤ depth
  length : s.elems.length + tally QueuePc.adds s.pc = s.ctrl.count
  stored : ∀ i v, s.elems[i]? = some v → s.slots ((tail - s.ctrl.count + i) % depth) = v
  fits : ∀ t, (s.pc t).Fits depth tail s.ctrl.count s.slots s.elems pending
  broken : s.broken = false
  history : s.pushed = s.gone.map Prod.snd ++ s.elems
  popped : (s.gone.filter Prod.fst).map Prod.snd = s.returned ++ pending
  pending_length : pending.length = tally QueuePc.leaves s.pc

variable {depth : Nat} {s s' : QueueState T α} {tail left : Nat} {pending : List α} {t t' : T}
  {pc : QueuePc α}

omit [DecidableEq T] in
theorem init_inv (hdepth : 0 < depth) (slots : Nat → α) : (init slots : QueueState T α).Inv depth 0 0 [] := by
  have hzero : ∀ weight : QueuePc α → Nat, weight .idle = 0 →
      tally weight (init slots : QueueState T α).pc = 0 := fun _ h => tally_eq_zero fun _ => h
  refine ⟨(zero_mod _).symm, le_refl _, (hzero _ rfl).symm, zero_le 1, (hzero _ rfl).symm,
    zero_le 1, ?_, (zero_add _).trans (hzero _ rfl), nofun, fun _ => trivial, rfl, rfl, rfl, (hzero _ rfl).symm⟩
  rw [hzero _ rfl]
  exact hdepth.le

/-- The numbers of the word, with one thread set apart. -/
structure Inv.Counts (s : QueueState T α) (t : T) (pc : QueuePc α) (left : Nat)
    (pending : List α) : Prop where
  push : s.ctrl.push = tallyBut QueuePc.holdsPush s.pc t + pc.holdsPush
  pop : s.ctrl.pop = tallyBut QueuePc.holdsPop s.pc t + pc.holdsPop + left
  leaves : pending.length = tallyBut QueuePc.leaves s.pc t + pc.leaves
  length : s.elems.length + (tallyBut QueuePc.adds s.pc t + pc.adds) = s.ctrl.count

/-- The invariant after a step of the thread `t`, in terms of where the others are. -/
structure Moved (depth : Nat) (s s' : QueueState T α) (t : T) (pc : QueuePc α) (tail left : Nat)
    (pending : List α) : Prop where
  place : s'.pc = Function.update s.pc t pc
  next : s'.ctrl.next = tail % depth
  count_le : s'.ctrl.count ≤ tail
  push : s'.ctrl.push = tallyBut QueuePc.holdsPush s.pc t + pc.holdsPush
  push_le : s'.ctrl.push ≤ 1
  pop : s'.ctrl.pop = tallyBut QueuePc.holdsPop s.pc t + pc.holdsPop + left
  pop_le : s'.ctrl.pop ≤ 1
  room : s'.ctrl.count + pending.length ≤ depth
  length : s'.elems.length + (tallyBut QueuePc.adds s.pc t + pc.adds) = s'.ctrl.count
  stored : ∀ i v, s'.elems[i]? = some v → s'.slots ((tail - s'.ctrl.count + i) % depth) = v
  self : pc.Fits depth tail s'.ctrl.count s'.slots s'.elems pending
  others : ∀ t', t' ≠ t → (s.pc t').Fits depth tail s'.ctrl.count s'.slots s'.elems pending
  broken : s'.broken = false
  history : s'.pushed = s'.gone.map Prod.snd ++ s'.elems
  popped : (s'.gone.filter Prod.fst).map Prod.snd = s'.returned ++ pending
  pending_length : pending.length = tallyBut QueuePc.leaves s.pc t + pc.leaves

theorem Moved.inv (h : Moved depth s s' t pc tail left pending) : s'.Inv depth tail left pending := by
  have hsum : ∀ weight, tally weight s'.pc = tallyBut weight s.pc t + weight pc := fun weight => by
    rw [h.place, tally_update]
  refine ⟨h.next, h.count_le, by rw [h.push, hsum], h.push_le, by rw [h.pop, hsum], h.pop_le, ?_, ?_,
    h.stored, ?_, h.broken, h.history, h.popped, by rw [h.pending_length, hsum]⟩
  · rw [hsum, ← h.pending_length]
    exact h.room
  · rw [hsum, h.length]
  rw [h.place]
  exact (forall_update_iff s.pc fun _ pc => pc.Fits depth tail s'.ctrl.count s'.slots s'.elems pending).mpr
    ⟨h.self, h.others⟩

/-- What no holder of the pop bit knows, does not depend on the elements. -/
theorem fits_of_holdsPop {count count' : Nat} {slots : Nat → α} {elems elems' pending' : List α}
    (h : pc.Fits depth tail count slots elems pending) (hnone : pc.holdsPop = 0) (hcount : pc.adds = 1 → 0 < count') :
    pc.Fits depth tail count' slots elems' pending' := by
  cases pc with
  | idle => trivial
  | push v position => exact ⟨h.1, hcount rfl⟩
  | pushed v => exact ⟨h.1, hcount rfl⟩
  | take _ _ _ | taken _ _ _ | clear1 | clear2 => cases hnone

/-- A first in, first out queue: no more elements than there is room for, no slot that is copied to
and from or copied to twice at a time, the elements that are gone are the first that were pushed, in
this order, the pops return those of them that were not cleared, and a peek gets the first element
that is left. -/
structure Fifo (depth : Nat) (s : QueueState T α) : Prop where
  checked : s.broken = false
  count_le : s.ctrl.count ≤ depth
  length_le : s.elems.length ≤ s.ctrl.count
  apart : ∀ t t' v position, t' ≠ t → s.pc t = .push v position →
    (∀ v' position', s.pc t' ≠ .push v' position') ∧
    ∀ kind position' want, s.pc t' = .take kind position' want → position' % depth ≠ position
  order : s.pushed = s.gone.map Prod.snd ++ s.elems
  pops : ∃ pending, (s.gone.filter Prod.fst).map Prod.snd = s.returned ++ pending ∧
    pending.length ≤ 1
  gets : ∀ t kind want got, s.pc t = .taken kind want got → want = some got
  peeks : ∀ t want got, s.pc t = .taken .peek want got → s.elems.head? = some got

section

variable {v : α} {ctrl : QueueCtrl} {position : Nat} (h : s.Inv depth tail left pending) {want : Option α} {kind : Take}

include h

theorem Inv.holdsPush_unique (ht : (s.pc t).holdsPush = 1) (hne : t' ≠ t) : (s.pc t').holdsPush = 0 := by
  have hle := le_tallyBut holdsPush s.pc hne
  have hsum := tally_eq holdsPush s.pc t
  have hpush := h.push
  have hone := h.push_le
  omega

theorem Inv.holdsPop_unique (ht : (s.pc t).holdsPop = 1) (hne : t' ≠ t) : (s.pc t').holdsPop = 0 := by
  have hle := le_tallyBut holdsPop s.pc hne
  have hsum := tally_eq holdsPop s.pc t
  have hpop := h.pop
  have hone := h.pop_le
  omega

theorem Inv.holdsPush_eq_zero (hfree : s.ctrl.push = 0) (t : T) : (s.pc t).holdsPush = 0 := by
  have hle := le_tally holdsPush s.pc t
  have hpush := h.push
  omega

theorem Inv.holdsPop_eq_zero (hfree : s.ctrl.pop = 0) (t : T) : (s.pc t).holdsPop = 0 := by
  have hle := le_tally holdsPop s.pc t
  have hpop := h.pop
  omega

theorem Inv.counts (hpc : s.pc t = pc) : Inv.Counts s t pc left pending := by
  have hsum := fun weight => tally_eq weight s.pc t
  rw [hpc] at hsum
  exact ⟨by rw [h.push, hsum], by rw [h.pop, hsum], by rw [h.pending_length, hsum], by rw [← hsum, h.length]⟩

omit [DecidableEq T] in
theorem Inv.room_pending : s.ctrl.count + pending.length ≤ depth := by
  rw [h.pending_length]
  exact h.room

omit [DecidableEq T] in
/-- A pop under way has set its bit. -/
theorem Inv.pending_le_pop : pending.length ≤ s.ctrl.pop := by
  have hmono : tally leaves s.pc ≤ tally holdsPop s.pc := by
    refine tally_mono (fun pc => ?_) s.pc
    match pc with
    | .take .pop _ _ | .taken .pop _ _ => exact le_refl 1
    | .take .peek _ _ | .taken .peek _ _ => exact zero_le _
    | .idle | .push _ _ | .pushed _ | .clear1 | .clear2 => exact zero_le _
  rw [h.pending_length, h.pop]
  omega

omit [DecidableEq T] in
/-- A push under way has set its bit. -/
theorem Inv.adds_le_push : tally adds s.pc ≤ s.ctrl.push := by
  rw [h.push]
  refine tally_mono (fun pc => ?_) s.pc
  cases pc with
  | push _ _ | pushed _ => exact le_refl 1
  | idle | take _ _ _ | taken _ _ _ | clear1 | clear2 => exact zero_le _

/-! ## Pushing -/

theorem Inv.pushBegin (hdepth : 0 < depth) (hsmall : depth < 0x1000000)
    (hpc : s.pc t = .idle) (hctrl : s.ctrl.tryPushBegin depth = some (ctrl, position)) :
    Moved depth s ({ s with ctrl }.goto t (.push v position)) t (.push v position) (tail + 1) left pending := by
  obtain ⟨hpush, hpop, hleaves, hlength⟩ := h.counts hpc
  rw [tryPushBegin, ite_none_left_eq_some, not_or, not_not, not_le] at hctrl
  obtain ⟨⟨hfree, hroom⟩, hctrl⟩ := hctrl
  have hle := h.count_le
  have hpending := h.pending_le_pop
  have hlt := mod_lt (tail + 1) hdepth
  have hcount : (s.ctrl.count + 1) % 0x1000000 = s.ctrl.count + 1 := mod_eq_of_lt (by omega)
  have hsub : tail + 1 - (s.ctrl.count + 1) = tail - s.ctrl.count := by omega
  have hnext : (if s.ctrl.next + 1 ≠ depth then s.ctrl.next + 1 else 0) % 0x1000000 = (tail + 1) % depth := by
    rw [h.next, next_slot hdepth, mod_eq_of_lt (by omega)]
  dsimp only at hctrl
  rw [hnext, hcount] at hctrl
  cases hctrl
  refine ⟨rfl, rfl, succ_le_succ hle, ?_, le_refl 1, hpop, h.pop_le, ?_, ?_, ?_, ?_, ?_,
    h.broken, h.history, h.popped, hleaves⟩
  · rw [hfree] at hpush
    exact congrArg (· + 1) hpush
  · change s.ctrl.count + 1 + _ ≤ depth
    omega
  · rw [← hlength]
    rfl
  · change ∀ i v, s.elems[i]? = some v → s.slots ((tail + 1 - (s.ctrl.count + 1) + i) % depth) = v
    rw [hsub]
    exact h.stored
  · exact ⟨h.next, succ_pos _⟩
  exact fun t' _ => (h.fits t').shift (h.holdsPush_eq_zero hfree t') hle

theorem Inv.pushCopy (hpc : s.pc t = .push v position) :
    Moved depth s ({ s with slots := update s.slots position v }.goto t (.pushed v)) t
      (.pushed v) tail left pending := by
  obtain ⟨hpush, hpop, hleaves, hlength⟩ := h.counts hpc
  obtain ⟨rfl, hpos⟩ : position = (tail - 1) % depth ∧ 0 < s.ctrl.count := by
    have hfits := h.fits t
    rwa [hpc] at hfits
  have hle := h.count_le
  have hroom := h.room_pending
  have hone : (QueuePc.push v ((tail - 1) % depth)).adds = 1 := rfl
  -- the elements before the new one are in other slots
  have hother : ∀ k, k < tail - 1 → tail - 1 - k < depth →
      update s.slots ((tail - 1) % depth) v (k % depth) = s.slots (k % depth) :=
    fun k hk hnear => update_of_ne (Tape.mod_ne_mod hk (by omega)) _ _
  refine ⟨rfl, h.next, hle, hpush, h.push_le, hpop, h.pop_le, hroom, hlength, ?_, ?_, ?_, h.broken,
    h.history, h.popped, hleaves⟩
  · intro i w hw
    have hi := (List.getElem?_eq_some_iff.mp hw).1
    change i < s.elems.length at hi
    exact (hother (tail - s.ctrl.count + i) (by omega) (by omega)).trans (h.stored i w hw)
  · exact ⟨update_self .., hpos⟩
  refine fun t' hne => (h.fits t').keep (h.holdsPush_unique (t := t) (by rw [hpc]; rfl) hne)
    (fun w hw hlt => ?_) fun _ hv => hv
  rw [hw, length_singleton] at hroom
  exact hother (tail - s.ctrl.count - 1) (by omega) (by omega)

theorem Inv.pushEnd (hpc : s.pc t = .pushed v) : Moved depth s ({ s with
      ctrl := s.ctrl.pushEnd
      elems := s.elems ++ [v]
      pushed := s.pushed ++ [v] }.goto t .idle) t .idle tail left pending := by
  obtain ⟨hpush, hpop, hleaves, hlength⟩ := h.counts hpc
  obtain ⟨hslot, hpos⟩ : s.slots ((tail - 1) % depth) = v ∧ 0 < s.ctrl.count := by
    have hfits := h.fits t
    rwa [hpc] at hfits
  have hle := h.count_le
  have hple := h.push_le
  have hone : (QueuePc.pushed v).holdsPush = 1 ∧ (QueuePc.pushed v).adds = 1 := ⟨rfl, rfl⟩
  have hadds := h.adds_le_push
  have hsum := tally_eq adds s.pc t
  rw [hpc] at hsum
  refine ⟨rfl, h.next, hle, ?_, zero_le 1, hpop, h.pop_le, h.room_pending, ?_, ?_, trivial, ?_,
    h.broken, ?_, h.popped, hleaves⟩
  · change 0 = tallyBut holdsPush s.pc t + 0
    omega
  · change (s.elems ++ [v]).length + (tallyBut adds s.pc t + 0) = s.ctrl.count
    rw [length_append, length_singleton]
    omega
  · intro i w hw
    change (s.elems ++ [v])[i]? = some w at hw
    change s.slots ((tail - s.ctrl.count + i) % depth) = w
    rcases lt_or_ge i s.elems.length with hi | hi
    · rw [getElem?_append_left hi] at hw
      exact h.stored i w hw
    rw [getElem?_append_right hi] at hw
    have hlast : i - s.elems.length = 0 := by
      have := (List.getElem?_eq_some_iff.mp hw).1
      rw [length_singleton] at this
      omega
    rw [hlast] at hw
    cases hw
    rw [← hslot]
    congr 2
    omega
  · refine fun t' hne => (h.fits t').keep (h.holdsPush_unique (t := t) (by rw [hpc]; rfl) hne)
      (fun _ _ _ => rfl) fun w hw => ?_
    change (s.elems ++ [v]).head? = some w
    rw [head?_append, hw]
    rfl
  change s.pushed ++ [v] = s.gone.map Prod.snd ++ (s.elems ++ [v])
  rw [h.history, append_assoc]

/-! ## Popping and peeking -/

/-- The element of a push under way is counted. -/
theorem Inv.count_pos (hadds : (s.pc t).adds = 1) : 0 < s.ctrl.count := by
  have hle := le_tally adds s.pc t
  have hlength := h.length
  omega

omit [DecidableEq T] in
/-- With the pop bit clear, nothing is being popped. -/
theorem Inv.pending_eq_nil (hfree : s.ctrl.pop = 0) : pending = [] := by
  have hle := h.pending_le_pop
  exact eq_nil_of_length_eq_zero (by omega)

omit [DecidableEq T] in
/-- With more elements than pushes under way there is one to take. -/
theorem Inv.exists_elem (hlt : s.ctrl.push < s.ctrl.count) : ∃ v rest, s.elems = v :: rest := by
  have hadds := h.adds_le_push
  have hlength := h.length
  cases helems : s.elems with
  | nil =>
    rw [helems, length_nil] at hlength
    omega
  | cons v rest => exact ⟨v, rest, rfl⟩

omit [DecidableEq T] in
theorem Inv.oldest (hdepth : 0 < depth) (hsmall : depth < 0x1000000) :
    s.ctrl.oldest depth % depth = (tail - s.ctrl.count) % depth := by
  have hroom := h.room_pending
  exact oldest_mod hdepth hsmall h.next (by omega) h.count_le

theorem Inv.popBegin (hdepth : 0 < depth) (hsmall : depth < 0x1000000)
    (hpc : s.pc t = .idle) (hctrl : s.ctrl.tryPopBegin depth = some (ctrl, position)) :
    ∃ pending', Moved depth s ({ s with
      ctrl
      elems := s.elems.tail
      gone := s.gone ++ (s.elems.take 1).map (true, ·) }.goto t (.take .pop position s.elems.head?)) t
      (.take .pop position s.elems.head?) tail left pending' := by
  obtain ⟨hpush, hpop, hleaves, hlength⟩ := h.counts hpc
  rw [tryPopBegin, ite_none_left_eq_some, not_or, not_not, not_le] at hctrl
  obtain ⟨⟨hfree, hlt⟩, hctrl⟩ := hctrl
  cases hctrl
  obtain rfl := h.pending_eq_nil hfree
  obtain ⟨v, rest, helems⟩ := h.exists_elem hlt
  have hle := h.count_le
  have hroom := h.room_pending
  have hsub : tail - (s.ctrl.count - 1) - 1 = tail - s.ctrl.count := by omega
  rw [helems, length_cons] at hlength
  rw [helems]
  refine ⟨[v], rfl, h.next, (sub_le _ _).trans hle, hpush, h.push_le, ?_, le_refl 1, ?_, ?_, ?_,
    ?_, ?_, h.broken, ?_, ?_, ?_⟩
  · change 1 = tallyBut holdsPop s.pc t + 1 + left
    omega
  · change s.ctrl.count - 1 + 1 ≤ depth
    rw [length_nil] at hroom
    omega
  · change rest.length + (tallyBut adds s.pc t + 0) = s.ctrl.count - 1
    have hidle : (QueuePc.idle : QueuePc α).adds = 0 := rfl
    omega
  · intro i w hw
    have hw' : s.elems[i + 1]? = some w := by
      rw [helems]
      exact hw
    rw [← h.stored (i + 1) w hw']
    change s.slots ((tail - (s.ctrl.count - 1) + i) % depth) = _
    congr 2
    omega
  · refine ⟨v, rfl, rfl, ?_, ?_, ?_⟩
    · change s.ctrl.count - 1 < tail
      omega
    · change s.ctrl.oldest depth % depth = (tail - (s.ctrl.count - 1) - 1) % depth
      rw [hsub]
      exact h.oldest hdepth hsmall
    change s.slots ((tail - (s.ctrl.count - 1) - 1) % depth) = v
    rw [hsub]
    exact h.stored 0 v (by rw [helems]; rfl)
  · intro t' _
    refine fits_of_holdsPop (h.fits t') (h.holdsPop_eq_zero hfree t') fun hadds => ?_
    have hbit := (le_tally adds s.pc t').trans h.adds_le_push
    rw [hadds] at hbit
    change 0 < s.ctrl.count - 1
    omega
  · change s.pushed = (s.gone ++ [(true, v)]).map Prod.snd ++ rest
    rw [h.history, helems, map_append, append_assoc]
    rfl
  · change ((s.gone ++ [(true, v)]).filter Prod.fst).map Prod.snd = s.returned ++ [v]
    have hpopped := h.popped
    rw [append_nil] at hpopped
    rw [filter_append, map_append, hpopped]
    rfl
  rw [length_nil] at hleaves
  change 1 = tallyBut leaves s.pc t + 1
  omega

theorem Inv.peekBegin (hdepth : 0 < depth) (hsmall : depth < 0x1000000)
    (hpc : s.pc t = .idle) (hctrl : s.ctrl.tryPeekBegin depth = some (ctrl, position)) :
    Moved depth s ({ s with ctrl }.goto t (.take .peek position s.elems.head?)) t
      (.take .peek position s.elems.head?) tail left pending := by
  obtain ⟨hpush, hpop, hleaves, hlength⟩ := h.counts hpc
  rw [tryPeekBegin, ite_none_left_eq_some, not_or, not_not, not_le] at hctrl
  obtain ⟨⟨hfree, hlt⟩, hctrl⟩ := hctrl
  cases hctrl
  obtain ⟨v, rest, helems⟩ := h.exists_elem hlt
  have hhead : s.elems.head? = some v := by
    rw [helems]
    rfl
  refine ⟨rfl, h.next, h.count_le, hpush, h.push_le, ?_, le_refl 1, h.room_pending, hlength,
    h.stored, ⟨v, hhead, hhead, h.oldest hdepth hsmall⟩, ?_, h.broken, h.history, h.popped, hleaves⟩
  · change 1 = tallyBut holdsPop s.pc t + 1 + left
    omega
  exact fun t' _ =>
    fits_of_holdsPop (h.fits t') (h.holdsPop_eq_zero hfree t') h.count_pos

/-- The copy gets the element that was the first one. -/
theorem Inv.takeCopy (hpc : s.pc t = .take kind position want) :
    Moved depth s (s.goto t (.taken kind want (s.slots (position % depth)))) t
      (.taken kind want (s.slots (position % depth))) tail left pending := by
  obtain ⟨hpush, hpop, hleaves, hlength⟩ := h.counts hpc
  have hfits := h.fits t
  rw [hpc] at hfits
  have hkind : (QueuePc.taken kind want (s.slots (position % depth))).leaves =
      (QueuePc.take kind position want).leaves := by
    cases kind <;> rfl
  refine ⟨rfl, h.next, h.count_le, hpush, h.push_le, hpop, h.pop_le, h.room_pending, hlength,
    h.stored, ?_, fun t' _ => h.fits t', h.broken, h.history, h.popped, ?_⟩
  · cases kind with
    | pop =>
      obtain ⟨v, hwant, hpending, -, hpos, hslot⟩ := hfits
      rw [hpos, hslot]
      exact ⟨hwant, hpending⟩
    | peek =>
      obtain ⟨v, hwant, hhead, hpos⟩ := hfits
      have hzero : s.elems[0]? = some v := by
        rw [← head?_eq_getElem?]
        exact hhead
      have hslot : s.slots ((tail - s.ctrl.count) % depth) = v := h.stored 0 v hzero
      rw [hpos, hslot]
      exact ⟨hwant, hhead⟩
  rw [hkind]
  exact hleaves

theorem Inv.takeEnd {got : α} (hpc : s.pc t = .taken kind want got) : ∃ pending', Moved depth s ({ s with
      ctrl := s.ctrl.popEnd
      returned := if kind = Take.pop then s.returned ++ [got] else s.returned }.goto t .idle) t .idle
      tail left pending' := by
  obtain ⟨hpush, hpop, hleaves, hlength⟩ := h.counts hpc
  have hple := h.pop_le
  have hone : (QueuePc.taken kind want got).holdsPop = 1 := rfl
  have hroom := h.room_pending
  have hfits := h.fits t
  rw [hpc] at hfits
  have hothers : ∀ pending', ∀ t', t' ≠ t →
      (s.pc t').Fits depth tail s.ctrl.count s.slots s.elems pending' := fun pending' t' hne =>
    fits_of_holdsPop (h.fits t') (h.holdsPop_unique (by rw [hpc]; rfl) hne) h.count_pos
  have hpop' : 0 = tallyBut holdsPop s.pc t + 0 + left := by omega
  cases kind with
  | pop =>
    obtain ⟨-, rfl⟩ := hfits
    refine ⟨[], rfl, h.next, h.count_le, hpush, h.push_le, hpop', zero_le 1, ?_, hlength,
      h.stored, trivial, hothers [], h.broken, h.history, ?_, ?_⟩
    · change s.ctrl.count + 0 ≤ depth
      omega
    · rw [append_nil]
      exact h.popped
    exact Nat.succ.inj hleaves
  | peek =>
    exact ⟨pending, rfl, h.next, h.count_le, hpush, h.push_le, hpop', zero_le 1, hroom, hlength,
      h.stored, trivial, hothers pending, h.broken, h.history, h.popped, hleaves⟩

/-! ## Clearing -/

theorem Inv.clearBegin1 (hpc : s.pc t = .idle) (hctrl : s.ctrl.tryClearBegin1 = some ctrl) :
    Moved depth s ({ s with ctrl }.goto t .clear1) t .clear1 tail left pending := by
  obtain ⟨hpush, hpop, hleaves, hlength⟩ := h.counts hpc
  rw [tryClearBegin1, ite_none_left_eq_some, not_not] at hctrl
  obtain ⟨hfree, hctrl⟩ := hctrl
  cases hctrl
  refine ⟨rfl, h.next, h.count_le, hpush, h.push_le, ?_, le_refl 1, h.room_pending, hlength,
    h.stored, trivial, fun t' _ => h.fits t', h.broken, h.history, h.popped, hleaves⟩
  change 1 = tallyBut holdsPop s.pc t + 1 + left
  omega

theorem Inv.clearBegin2 (hpc : s.pc t = .clear1) (hctrl : s.ctrl.tryClearBegin2 = some ctrl) :
    Moved depth s ({ s with ctrl }.goto t .clear2) t .clear2 tail left pending := by
  obtain ⟨hpush, hpop, hleaves, hlength⟩ := h.counts hpc
  rw [tryClearBegin2, ite_none_left_eq_some, not_not] at hctrl
  obtain ⟨hfree, hctrl⟩ := hctrl
  cases hctrl
  refine ⟨rfl, h.next, h.count_le, ?_, le_refl 1, hpop, h.pop_le, h.room_pending, hlength,
    h.stored, trivial, fun t' _ => h.fits t', h.broken, h.history, h.popped, hleaves⟩
  change 1 = tallyBut holdsPush s.pc t + 1
  omega

theorem Inv.clearStop (hpc : s.pc t = .clear1) : Moved depth s (s.goto t .idle) t .idle tail (left + 1) pending := by
  obtain ⟨hpush, hpop, hleaves, hlength⟩ := h.counts hpc
  refine ⟨rfl, h.next, h.count_le, hpush, h.push_le, ?_, h.pop_le, h.room_pending, hlength, h.stored,
    trivial, fun t' _ => h.fits t', h.broken, h.history, h.popped, hleaves⟩
  change s.ctrl.pop = tallyBut holdsPop s.pc t + 0 + (left + 1)
  have hclear : (QueuePc.clear1 : QueuePc α).holdsPop = 1 := rfl
  omega

/-- With both bits set no one else is in a call. -/
theorem Inv.clearStore (hpc : s.pc t = .clear2) : Moved depth s ({ s with
      ctrl := ⟨0, 0, 0, 0⟩
      elems := []
      gone := s.gone ++ s.elems.map (false, ·) }.goto t .idle) t .idle 0 0 [] := by
  obtain ⟨hpush, hpop, hleaves, hlength⟩ := h.counts hpc
  have hidle : ∀ t', t' ≠ t → s.pc t' = .idle := by
    intro t' hne
    have hnopush := h.holdsPush_unique (t := t) (by rw [hpc]; rfl) hne
    have hnopop := h.holdsPop_unique (t := t) (by rw [hpc]; rfl) hne
    revert hnopush hnopop
    cases s.pc t' with
    | idle => exact fun _ _ => rfl
    | push _ _ | pushed _ | clear2 => exact fun hcon => by cases hcon
    | take _ _ _ | taken _ _ _ | clear1 => exact fun _ hcon => by cases hcon
  have hzero : ∀ weight : QueuePc α → Nat, weight .idle = 0 → tallyBut weight s.pc t = 0 :=
    fun weight hw => tallyBut_eq_zero fun t' hne => by rw [hidle t' hne, hw]
  have hpending : pending = [] := eq_nil_of_length_eq_zero (hleaves.trans (by rw [hzero _ rfl]; rfl))
  refine ⟨rfl, (zero_mod _).symm, le_refl _, ?_, zero_le 1, ?_, zero_le 1,
    zero_le _, ?_, nofun, trivial, ?_, h.broken, ?_, ?_, ?_⟩
  · rw [hzero _ rfl]
    rfl
  · rw [hzero _ rfl]
    rfl
  · rw [hzero _ rfl]
    rfl
  · intro t' hne
    rw [hidle t' hne]
    trivial
  · change s.pushed = (s.gone ++ s.elems.map (false, ·)).map Prod.snd ++ []
    rw [h.history, append_nil, map_append, List.map_map]
    exact congrArg _ (List.map_id' _).symm
  · change ((s.gone ++ s.elems.map (false, ·)).filter Prod.fst).map Prod.snd = s.returned ++ []
    have hpopped := h.popped
    rw [hpending] at hpopped
    rw [filter_append, map_append, hpopped, filter_eq_nil_iff.mpr, map_nil, append_nil]
    intro x hx
    obtain ⟨v, -, rfl⟩ := List.mem_map.mp hx
    exact Bool.false_ne_true
  rw [hzero _ rfl]
  rfl

/-! ## Every run -/

omit [DecidableEq T] in
/-- What `check_depth` looks at is in order. -/
theorem Inv.check (hdepth : 0 < depth) :
    ({ s with broken := s.broken || !s.ctrl.checkDepth depth }).Inv depth tail left pending := by
  have hroom := h.room_pending
  have hnext : s.ctrl.next ≤ depth := by
    rw [h.next]
    exact (mod_lt _ hdepth).le
  have hcheck : s.ctrl.checkDepth depth = true := decide_eq_true ⟨hnext, by omega⟩
  refine ⟨h.next, h.count_le, h.push, h.push_le, h.pop, h.pop_le, h.room, h.length, h.stored, h.fits,
    ?_, h.history, h.popped, h.pending_length⟩
  rw [hcheck, h.broken]
  rfl

/-- Every step keeps the invariant. -/
theorem Inv.step (hdepth : 0 < depth)
    (hsmall : depth < 0x1000000) {call : QueueCall T α} (hstep : s.step depth call = some s') :
    ∃ tail' left' pending', s'.Inv depth tail' left' pending' := by
  unfold QueueState.step at hstep
  -- a call is only possible at its place, and one that fails changes nothing
  split at hstep <;> split at hstep <;> first | cases hstep | split at hstep <;> cases hstep
  all_goals try exact ⟨tail, left, pending, h⟩
  · exact ⟨tail, left, pending, h.check hdepth⟩
  · next hpc _ _ _ hctrl => exact ⟨tail + 1, left, pending, (h.pushBegin hdepth hsmall hpc hctrl).inv⟩
  · next hpc => exact ⟨tail, left, pending, (h.pushCopy hpc).inv⟩
  · next hpc => exact ⟨tail, left, pending, (h.pushEnd hpc).inv⟩
  · next hpc _ _ _ hctrl =>
      obtain ⟨pending', hmoved⟩ := h.popBegin hdepth hsmall hpc hctrl
      exact ⟨tail, left, pending', hmoved.inv⟩
  · next hpc _ _ _ hctrl => exact ⟨tail, left, pending, (h.peekBegin hdepth hsmall hpc hctrl).inv⟩
  · next hpc => exact ⟨tail, left, pending, (h.takeCopy hpc).inv⟩
  · next hpc =>
      obtain ⟨pending', hmoved⟩ := h.takeEnd hpc
      exact ⟨tail, left, pending', hmoved.inv⟩
  · next hpc _ _ hctrl => exact ⟨tail, left, pending, (h.clearBegin1 hpc hctrl).inv⟩
  · next hpc _ _ hctrl => exact ⟨tail, left, pending, (h.clearBegin2 hpc hctrl).inv⟩
  · next hpc => exact ⟨tail, left + 1, pending, (h.clearStop hpc).inv⟩
  · next hpc => exact ⟨0, 0, [], (h.clearStore hpc).inv⟩

theorem Inv.fifo : s.Fifo depth where
  checked := h.broken
  count_le := (le_add_right _ _).trans h.room
  length_le := h.length ▸ le_add_right _ _
  apart := by
    intro t t' v position hne hpc
    have hnone := h.holdsPush_unique (t := t) (by rw [hpc]; rfl) hne
    have hfits := h.fits t
    have hfits' := h.fits t'
    have hle := h.count_le
    have hroom := h.room_pending
    rw [hpc] at hfits
    obtain ⟨hpos, hcount⟩ := hfits
    refine ⟨fun v' position' hpc' => ?_, fun kind position' want hpc' => ?_⟩
    · rw [hpc'] at hnone
      cases hnone
    rw [hpc'] at hfits'
    cases kind with
    | pop =>
      obtain ⟨w, -, hpending, hlt, hat, -⟩ := hfits'
      rw [hpending, length_singleton] at hroom
      rw [hat, hpos]
      exact Tape.mod_ne_mod (by omega) (by omega)
    | peek =>
      obtain ⟨w, -, hhead, hat⟩ := hfits'
      have hadds := le_tally adds s.pc t
      have hlength := h.length
      have hpos' : 0 < s.elems.length := by
        rw [length_pos_iff]
        intro hnil
        rw [hnil] at hhead
        cases hhead
      have hone : (QueuePc.push v position).adds = 1 := rfl
      rw [hpc] at hadds
      rw [hat, hpos]
      exact Tape.mod_ne_mod (by omega) (by omega)
  order := h.history
  pops := ⟨pending, h.popped, h.pending_le_pop.trans h.pop_le⟩
  gets := by
    intro t kind want got hpc
    have hfits := h.fits t
    rw [hpc] at hfits
    cases kind <;> exact hfits.1
  peeks := by
    intro t want got hpc
    have hfits := h.fits t
    rw [hpc] at hfits
    exact hfits.2

end

/-- Every interleaving of calls on a queue of any depth keeps it a first in, first out queue. -/
theorem queue_fifo (hdepth : 0 < depth) (hsmall : depth < 0x1000000) (slots : Nat → α)
    {calls : List (QueueCall T α)} (hrun : Run (step depth) (fun _ _ => True) (init slots) calls s) :
    s.Fifo depth := by
  obtain ⟨tail, left, pending, h⟩ : ∃ tail left pending, s.Inv depth tail left pending := by
    refine hrun.invariant (P := fun s => ∃ tail left pending, s.Inv depth tail left pending)
      ⟨0, 0, [], init_inv hdepth slots⟩ ?_
    rintro s call s' ⟨tail, left, pending, h⟩ - hstep
    exact h.step hdepth hsmall hstep
  exact h.fifo

/-- One thread pushes two elements, and another one pops them. -/
theorem queue_fifo_two : ∃ s : QueueState Bool Nat, Run (step 2) (fun _ _ => True) (init fun _ => 0)
      [.pushBegin true 5, .pushCopy true, .pushEnd true, .pushBegin true 6, .takeBegin false .pop, .pushCopy true,
        .takeCopy false, .pushEnd true, .takeEnd false, .takeBegin false .pop, .takeCopy false, .takeEnd false] s ∧
      s.returned = [5, 6] ∧ s.Fifo 2 :=
  (Run.exists_of_eval (by decide +kernel)).imp fun _ h => ⟨h.1, h.2, queue_fifo (by decide) (by decide) _ h.1⟩

end QueueState

end Rpcsx.Ps3.CellSync
