import Mathlib.Data.Nat.Basic
import Mathlib.Logic.Relation
import Mathlib.Order.Basic
import Rpcsx.Lib.Run

/-!
# The concurrent list `lf_bunch`

`push` and `push_if` of `lockless.h`. A step of a thread is one access to `m_head`, or one call of the predicate. Items
stay until the list is destroyed, and so a pointer to an item is the number of items that had been added when it was;
the null pointer is zero.

After an exchange that fails, `push_if` looks at the items from the new head down to the one it began with before. What
has been looked at is always all that is at or below `_chk`, and what is above `ptr` and not above `_old`.
-/

namespace Rpcsx.Util.LfBunch

open Lib Function List Option Relation

variable {T A : Type}

/-- `lf_queue_item`. -/
structure Item (A : Type) where
  link : Nat
  data : A

/-- Before the exchange of `push`, or in the loop of `push_if`. -/
inductive Pc (A : Type)
  | idle
  | push (data : A) (old : Nat)
  | check (data : A) (old chk ptr : Nat)

/-- A call of `push_if` that is over. -/
structure Returned (A : Type) where
  data : A
  result : Nat
  deriving DecidableEq

structure State (T A : Type) where
  head : Nat := 0
  items : List (Item A) := []
  pc : T → Pc A := fun _ => .idle
  returned : List (Returned A) := []

inductive Action (A : Type)
  | push (data : A)
  | pushIf (data : A)
  | next

def item (items : List (Item A)) : Nat → Option (Item A)
  | 0 => none
  | k + 1 => items[k]?

def State.goto [DecidableEq T] (s : State T A) (t : T) (pc : Pc A) : State T A := { s with pc := update s.pc t pc }

/-- The exchange puts the item in front of the list. -/
def State.add (s : State T A) (data : A) (link : Nat) : State T A :=
  { s with items := s.items ++ [⟨link, data⟩], head := s.items.length + 1 }

def State.ret (s : State T A) (data : A) (result : Nat) : State T A :=
  { s with returned := ⟨data, result⟩ :: s.returned }

def step [DecidableEq T] (pred : A → A → Bool) (s : State T A) : T × Action A → Option (State T A)
  | (t, .push data) =>
    match s.pc t with
    | .idle => some (s.goto t (.push data s.head))
    | _ => none
  | (t, .pushIf data) =>
    match s.pc t with
    | .idle => some (s.goto t (.check data s.head 0 s.head))
    | _ => none
  | (t, .next) =>
    match s.pc t with
    | .idle => none
    | .push data old => some (if s.head = old then (s.add data old).goto t .idle else s.goto t (.push data s.head))
    | .check data old chk ptr =>
      if ptr ≠ chk then
        (item s.items ptr).map fun x =>
          if pred data x.data then s.goto t (.check data old chk x.link) else (s.goto t .idle).ret data 0
      else some (if s.head = old then ((s.add data old).goto t .idle).ret data (s.items.length + 1)
        else s.goto t (.check data s.head old s.head))

/-! ## The list -/

def State.Link (s : State T A) (p q : Nat) : Prop := ∃ x, item s.items p = some x ∧ x.link = q

/-- The item at `p` is in the list, and holds `a`. -/
def State.Holds (s : State T A) (p : Nat) (a : A) : Prop :=
  ReflTransGen s.Link s.head p ∧ ∃ x, item s.items p = some x ∧ x.data = a

/-! ## The invariant -/

/-- `a` agrees with the items from the `m`-th up to the `n`-th. -/
def Agrees (pred : A → A → Bool) (items : List (Item A)) (a : A) (m n : Nat) : Prop :=
  ∀ (k : Nat) (x : Item A), m ≤ k → k < n → items[k]? = some x → pred a x.data

def PcOk (pred : A → A → Bool) (items : List (Item A)) : Pc A → Prop
  | .check data old chk ptr => (chk ≤ ptr ∧ ptr ≤ old ∧ old ≤ items.length) ∧ Agrees pred items data 0 chk ∧
      Agrees pred items data ptr old
  | _ => True

def ReturnedOk (pred : A → A → Bool) (items : List (Item A)) (r : Returned A) : Prop :=
  match r.result with
  | 0 => ∃ (k : Nat) (x : Item A), items[k]? = some x ∧ pred r.data x.data = false
  | k + 1 => (∃ x : Item A, items[k]? = some x ∧ x.data = r.data) ∧ Agrees pred items r.data 0 k

structure Inv (pred : A → A → Bool) (s : State T A) : Prop where
  head : s.head = s.items.length
  links : ∀ (k : Nat) (x : Item A), s.items[k]? = some x → x.link = k
  pcs : ∀ t, PcOk pred s.items (s.pc t)
  returned : ∀ r ∈ s.returned, ReturnedOk pred s.items r

variable {pred : A → A → Bool} {s s' : State T A} {t : T} {items more : List (Item A)} {x : Item A}

theorem Agrees.append {a : A} {m n : Nat} (h : Agrees pred items a m n) (hn : n ≤ items.length) :
    Agrees pred (items ++ more) a m n := by
  intro k x hm hk hx
  rw [getElem?_append_left (by omega)] at hx
  exact h k x hm hk hx

theorem PcOk.append : ∀ {pc : Pc A}, PcOk pred items pc → PcOk pred (items ++ more) pc
  | .idle, _ | .push .., _ => trivial
  | .check .., ⟨⟨hchk, hptr, hold⟩, hbelow, habove⟩ =>
    ⟨⟨hchk, hptr, hold.trans (by simp)⟩, hbelow.append (by omega), habove.append hold⟩

theorem getElem?_append_some {k : Nat} (h : items[k]? = some x) : (items ++ more)[k]? = some x := by
  rw [getElem?_append_left (List.getElem?_eq_some_iff.mp h).1]
  exact h

theorem ReturnedOk.append : ∀ {r : Returned A}, ReturnedOk pred items r → ReturnedOk pred (items ++ more) r
  | ⟨_, 0⟩, ⟨k, x, hx, hpred⟩ => ⟨k, x, getElem?_append_some hx, hpred⟩
  | ⟨_, _ + 1⟩, ⟨⟨x, hx, hdata⟩, hagrees⟩ =>
    ⟨⟨x, getElem?_append_some hx, hdata⟩, hagrees.append (List.getElem?_eq_some_iff.mp hx).1.le⟩

namespace Inv

variable (h : Inv pred s) {p q : Nat}

include h

theorem goto [DecidableEq T] {pc : Pc A} (hpc : PcOk pred s.items pc) : Inv pred (s.goto t pc) :=
  ⟨h.head, h.links, (forall_update_iff s.pc fun _ => PcOk pred s.items).mpr ⟨hpc, fun t' _ => h.pcs t'⟩, h.returned⟩

theorem ret {data : A} {result : Nat} (hr : ReturnedOk pred s.items ⟨data, result⟩) : Inv pred (s.ret data result) :=
  ⟨h.head, h.links, h.pcs, forall_mem_cons.mpr ⟨hr, h.returned⟩⟩

theorem idle [DecidableEq T] : Inv pred (s.goto t .idle) := h.goto trivial

theorem add {data : A} : Inv pred (s.add data s.head) := by
  refine ⟨by simp [State.add], fun k x hx => ?_, fun t' => (h.pcs t').append, fun r hr => (h.returned r hr).append⟩
  rw [State.add, getElem?_append] at hx
  split at hx
  · exact h.links k x hx
  obtain ⟨hk, rfl⟩ := List.getElem?_eq_some_iff.mp hx
  rw [length_singleton] at hk
  simp only [getElem_singleton, h.head]
  omega

/-- A step keeps the invariant, and the items. -/
theorem step [DecidableEq T] {l : T × Action A} (hstep : step pred s l = some s') :
    Inv pred s' ∧ s.items <+: s'.items := by
  obtain ⟨t, a⟩ := l
  have hhead := h.head
  have ht := h.pcs t
  cases a with
  | push data =>
    simp only [LfBunch.step] at hstep
    split at hstep
    · cases hstep
      exact ⟨h.goto trivial, prefix_rfl⟩
    · cases hstep
  | pushIf data =>
    simp only [LfBunch.step] at hstep
    split at hstep
    · cases hstep
      refine ⟨h.goto ⟨⟨Nat.zero_le _, le_rfl, hhead.le⟩, fun k x _ hk => ?_, fun k x hm hk => ?_⟩, prefix_rfl⟩ <;> omega
    · cases hstep
  | next =>
    simp only [LfBunch.step] at hstep
    split at hstep
    · cases hstep
    · cases hstep
      split
      · subst_vars
        exact ⟨h.add.idle, prefix_append _ _⟩
      exact ⟨h.goto trivial, prefix_rfl⟩
    rename_i data old chk ptr hpc
    rw [hpc] at ht
    obtain ⟨⟨hchk, hptr, hold⟩, hbelow, habove⟩ := ht
    split at hstep
    · obtain ⟨x, hx, rfl⟩ := map_eq_some_iff.mp hstep
      obtain ⟨k, rfl⟩ : ∃ k, ptr = k + 1 := Nat.exists_eq_succ_of_ne_zero (by omega)
      obtain rfl := h.links k x hx
      split
      · rename_i hpred
        refine ⟨h.goto ⟨⟨by omega, by omega, hold⟩, hbelow, fun j y hm hj hy => ?_⟩, prefix_rfl⟩
        obtain rfl | hlt := Nat.eq_or_lt_of_le hm
        · obtain rfl := Option.some.inj (hx.symm.trans hy)
          exact hpred
        exact habove j y hlt hj hy
      rename_i hpred
      exact ⟨h.idle.ret ⟨x.link, x, hx, Bool.not_eq_true _ ▸ hpred⟩, prefix_rfl⟩
    obtain rfl : ptr = chk := not_not.mp ‹_›
    -- Everything up to the head that the item was linked to has been looked at.
    have hall : Agrees pred s.items data 0 old := fun k x hm hk hx =>
      (Nat.lt_or_ge k ptr).elim (hbelow k x hm · hx) (habove k x · hk hx)
    cases hstep
    split
    · subst old
      refine ⟨h.add.idle.ret ⟨⟨_, getElem?_concat_length, rfl⟩, ?_⟩, prefix_append _ _⟩
      exact (hhead ▸ hall).append le_rfl
    exact ⟨h.goto ⟨⟨by omega, le_rfl, hhead.le⟩, hall, fun k x hm hk => by omega⟩, prefix_rfl⟩

/-- A link leads to the item before. -/
theorem link_iff : s.Link p q ↔ p = q + 1 ∧ q < s.items.length := by
  constructor
  · rintro ⟨x, hx, rfl⟩
    cases p with
    | zero => cases hx
    | succ k => exact ⟨congrArg (· + 1) (h.links k x hx).symm, h.links k x hx ▸ (List.getElem?_eq_some_iff.mp hx).1⟩
  rintro ⟨rfl, hq⟩
  exact ⟨_, getElem?_eq_getElem hq, h.links q _ (getElem?_eq_getElem hq)⟩

theorem lt_of_transGen (hpq : TransGen s.Link p q) : q < p := by
  induction hpq with
  | single hlink => exact ((h.link_iff).mp hlink).1 ▸ Nat.lt_succ_self _
  | tail _ hlink ih => exact (Nat.lt_of_succ_le ((h.link_iff).mp hlink).1.ge).trans ih

theorem reaches {p : Nat} (hp : p ≤ s.items.length) : ReflTransGen s.Link s.head p := by
  induction hp using Nat.decreasingInduction with
  | self => rw [h.head]
  | of_succ k hk ih => exact ih.tail (h.link_iff.mpr ⟨rfl, hk⟩)

/-- Every item that was added is in the list. -/
theorem holds_iff {p : Nat} {a : A} : s.Holds p a ↔ ∃ x, item s.items p = some x ∧ x.data = a := by
  refine and_iff_right_of_imp fun ⟨x, hx, _⟩ => h.reaches ?_
  cases p with
  | zero => exact Nat.zero_le _
  | succ k => exact (List.getElem?_eq_some_iff.mp hx).1

end Inv

theorem item_of_prefix (h : items <+: more) {p : Nat} (hx : item items p = some x) : item more p = some x := by
  obtain ⟨_, rfl⟩ := h
  cases p with
  | zero => cases hx
  | succ k => exact getElem?_append_some hx

/-- A thread does not follow the null pointer. -/
theorem Inv.next_isSome [DecidableEq T] (h : Inv pred s) (ht : s.pc t ≠ .idle) :
    (LfBunch.step pred s (t, .next)).isSome := by
  have hpc := h.pcs t
  simp only [LfBunch.step]
  split
  · contradiction
  · rfl
  rename_i _ old chk ptr hcheck
  rw [hcheck] at hpc
  obtain ⟨⟨hchk, hptr, hold⟩, -⟩ := hpc
  split
  · obtain ⟨k, rfl⟩ : ∃ k, ptr = k + 1 := Nat.exists_eq_succ_of_ne_zero (by omega)
    rw [isSome_map, item, isSome_getElem?]
    omega
  rfl

/-- **What `push_if` returns**, in every state that calls from any number of threads lead to. An item that it returns is
in the list, and its data agrees with that of every item after it; if it returns null, then the data does not agree
with some item in the list. Items stay in the list, and no thread is stuck. -/
theorem push_if_checked [DecidableEq T] (pred : A → A → Bool) {calls : List (T × Action A)}
    (h : Run (step pred) (fun _ _ => True) {} calls s) :
    (∀ r ∈ s.returned, r.result ≠ 0 →
      s.Holds r.result r.data ∧ ∀ p a, TransGen s.Link r.result p → s.Holds p a → pred r.data a) ∧
    (∀ r ∈ s.returned, r.result = 0 → ∃ p a, s.Holds p a ∧ pred r.data a = false) ∧
    (∀ l s', step pred s l = some s' → ∀ p a, s.Holds p a → s'.Holds p a) ∧
    ∀ t, s.pc t ≠ .idle → (step pred s (t, .next)).isSome := by
  have hinv : Inv pred s := h.invariant ⟨rfl, nofun, fun _ => trivial, nofun⟩ fun s l s' hs _ hstep => (hs.step hstep).1
  refine ⟨fun ⟨data, result⟩ hr hne => ?_, fun ⟨data, result⟩ hr hzero => ?_, fun l s' hstep p a hp => ?_,
    fun t => hinv.next_isSome⟩
  · obtain ⟨k, rfl⟩ := Nat.exists_eq_succ_of_ne_zero hne
    obtain ⟨hx, hagrees⟩ := hinv.returned _ hr
    refine ⟨hinv.holds_iff.mpr hx, fun p a hp ha => ?_⟩
    obtain ⟨-, y, hy, rfl⟩ := ha
    cases p with
    | zero => cases hy
    | succ j => exact hagrees j y (Nat.zero_le _) (Nat.lt_of_succ_lt_succ (hinv.lt_of_transGen hp)) hy
  · obtain rfl := hzero
    obtain ⟨k, x, hx, hpred⟩ := hinv.returned _ hr
    exact ⟨k + 1, x.data, hinv.holds_iff.mpr ⟨x, hx, rfl⟩, hpred⟩
  obtain ⟨hinv', hitems⟩ := hinv.step hstep
  obtain ⟨x, hx, rfl⟩ := hinv.holds_iff.mp hp
  exact hinv'.holds_iff.mpr ⟨x, item_of_prefix hitems hx, rfl⟩

/-- Numbers that have to differ: both threads began with the empty list. -/
theorem push_if_checked_distinct : ∃ s : State Bool Nat,
      Run (step (· != ·)) (fun _ _ => True) {} [(true, .pushIf 5), (false, .pushIf 5), (true, .next), (false, .next),
        (false, .next)] s ∧ s.returned = [⟨5, 0⟩, ⟨5, 1⟩] ∧ ∃ p a, s.Holds p a ∧ (5 != a) = false := by
  refine (Run.exists_of_eval (P := fun s : State Bool Nat => s.returned = [⟨5, 0⟩, ⟨5, 1⟩]) (by decide)).imp
    fun s ⟨hrun, hs⟩ => ⟨hrun, hs, ?_⟩
  exact (push_if_checked _ hrun).2.1 ⟨5, 0⟩ (hs ▸ mem_cons_self) rfl

/-! ## Iteration -/

/-- An iterator, with the data that it has read. -/
structure Iterator (T A : Type) where
  s : State T A
  ptr : Nat := s.head
  seen : List A := []

variable [DecidableEq T]

/-- `*it` and `++it`, or a step of some thread in between. -/
def iterate (pred : A → A → Bool) (i : Iterator T A) : Option (T × Action A) → Option (Iterator T A)
  | none => (item i.s.items i.ptr).map fun x => ⟨i.s, x.link, i.seen ++ [x.data]⟩
  | some l => (step pred i.s l).map (⟨·, i.ptr, i.seen⟩)

/-- Of the items that were there at the beginning, those above the pointer have been read. -/
structure Iterates (pred : A → A → Bool) (old : List (Item A)) (i : Iterator T A) : Prop where
  inv : Inv pred i.s
  items : old <+: i.s.items
  ptr : i.ptr ≤ old.length
  seen : i.seen ++ ((old.take i.ptr).map Item.data).reverse = (old.map Item.data).reverse

variable {i i' : Iterator T A}

theorem Iterates.step {l : Option (T × Action A)} (h : Iterates pred items i) (hstep : iterate pred i l = some i') :
    Iterates pred items i' := by
  obtain ⟨s, ptr, seen⟩ := i
  obtain ⟨hinv, hitems, hptr, hseen⟩ := h
  cases l with
  | some l =>
    obtain ⟨s', hs', rfl⟩ := map_eq_some_iff.mp hstep
    obtain ⟨hinv', hitems'⟩ := hinv.step hs'
    exact ⟨hinv', hitems.trans hitems', hptr, hseen⟩
  | none =>
    obtain ⟨x, hx, rfl⟩ := map_eq_some_iff.mp hstep
    cases ptr with
    | zero => cases hx
    | succ k =>
      obtain rfl := hinv.links k x hx
      obtain ⟨more, hmore⟩ := id hitems
      rw [item, ← hmore, getElem?_append_left hptr] at hx
      refine ⟨hinv, hitems, Nat.le_of_succ_le hptr, ?_⟩
      rw [← hseen]
      simp [take_add_one, hx]

/-- **An iteration reads what was in the list when it began**, from the newest item to the oldest one, whatever is
added meanwhile, and does not get stuck before the end. -/
theorem iterate_eq_snapshot (pred : A → A → Bool) {calls : List (T × Action A)} {ls : List (Option (T × Action A))}
    (h : Run (step pred) (fun _ _ => True) {} calls s) (hit : Run (iterate pred) (fun _ _ => True) { s } ls i) :
    i.seen <+: (s.items.map Item.data).reverse ∧ (i.ptr = 0 ↔ i.seen = (s.items.map Item.data).reverse) ∧
    (i.ptr ≠ 0 → (iterate pred i none).isSome) := by
  have hinv : Inv pred s := h.invariant ⟨rfl, nofun, fun _ => trivial, nofun⟩ fun s l s' hs _ hstep => (hs.step hstep).1
  have hstart : Iterates pred s.items { s } := ⟨hinv, prefix_rfl, hinv.head.le, by simp [hinv.head]⟩
  obtain ⟨-, hitems, hptr, hseen⟩ := hit.invariant hstart fun i l i' hi _ hstep => hi.step hstep
  refine ⟨⟨_, hseen⟩, ⟨fun hzero => ?_, fun heq => ?_⟩, fun hne => ?_⟩
  · simpa [hzero] using hseen
  · have hlen := congrArg length hseen
    simp_all
  obtain ⟨k, hk⟩ := Nat.exists_eq_succ_of_ne_zero hne
  rw [iterate, isSome_map, hk, item, isSome_getElem?]
  have hle := hitems.length_le
  omega

/-- An item is added after the iteration has begun. -/
theorem iterate_eq_snapshot_push : ∃ (s : State Bool Nat) (i : Iterator Bool Nat),
    Run (iterate (· != ·)) (fun _ _ => True) { s } [some (true, .push 6), some (true, .next), none] i ∧
      i.s.head = 2 ∧ i.seen = (s.items.map Item.data).reverse :=
  have hrun : Run (step (· != ·)) (fun _ _ => True) ({} : State Bool Nat) [(true, .push 5), (true, .next)] _ := .of_eval rfl
  ⟨_, Run.exists_and (.of_eval rfl) rfl fun hit => (iterate_eq_snapshot _ hrun hit).2.1.mp rfl⟩

end Rpcsx.Util.LfBunch
