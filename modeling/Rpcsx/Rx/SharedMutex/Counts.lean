import Mathlib.Data.Nat.Bitwise
import Rpcsx.Rx.SharedMutex.Basic

/-!
# What the word of a `shared_mutex` counts

The parties to a mutex in numbers, the word they make, and the rule that keeps them apart: there is one
token, which a writer holds, or a release on its way to signal, or a pending signal, or the readers
together. Every operation keeps the rule, and so no operation finds the word over- or underflown.
-/

namespace Rpcsx.Rx.SharedMutex

@[ext]
structure Hold where
  reads : Nat
  writes : Nat
  deriving DecidableEq

def Effect.apply : Effect → Hold → Hold
  | .keep, h => h
  | .addRead, h => { h with reads := h.reads + 1 }
  | .addWrite, h => { h with writes := h.writes + 1 }
  | .dropRead, h => { h with reads := h.reads - 1 }
  | .dropWrite, h => { h with writes := h.writes - 1 }
  | .upgrade, h => ⟨h.reads - 1, h.writes + 1⟩
  | .downgrade, h => ⟨h.reads + 1, h.writes - 1⟩

def Signal.apply : Signal → Nat → Nat
  | .keep, n => n
  | .take, n => n - 1
  | .give, n => n + 1

/-- Holds of readers, holds of writers, writers that wait, releases that have still to signal, and
pending signals. -/
structure Counts where
  reading : Nat
  holding : Nat
  queued : Nat
  signalling : Nat
  pending : Nat

namespace Counts

def word (c : Counts) : Nat := c_one * (c.holding + c.queued) + c.reading + c_sig * c.pending

/-- There is one token, and the fields of the word have room. -/
structure Valid (c : Counts) : Prop where
  token : c.holding + c.signalling + c.pending ≤ 1
  readers : c.reading ≠ 0 → c.holding + c.signalling + c.pending = 0
  few : c.reading < c_one
  room : c.holding + c.queued < 0x10000

/-- A release that has still to signal has someone to signal. -/
def Manned (c : Counts) : Prop := c.signalling ≠ 0 → c.queued ≠ 0

/-- The counts with one thread added: its holds, whether it waits, and whether it has to signal. -/
def join (c : Counts) (h : Hold) (queued signalling : Nat) : Counts :=
  ⟨c.reading + h.reads, c.holding + h.writes, c.queued + queued, c.signalling + signalling, c.pending⟩

/-- The word is that of valid counts. -/
structure Shows (c : Counts) (value : Nat) : Prop where
  valid : c.Valid
  word : value = c.word

variable {c : Counts} {v : Nat}

/-- The signal's bit of the word. -/
theorem signalled_iff (h : v < c_err) : signalled v ↔ c_sig ≤ v := by
  have hbit : v &&& 2 ^ 30 = (v.testBit 30).toNat * 2 ^ 30 := Nat.and_two_pow v 30
  have htest : v.testBit 30 = decide (v / 2 ^ 30 % 2 = 1) := Nat.testBit_eq_decide_div_mod_eq
  have hsig : (2 : Nat) ^ 30 = c_sig := rfl
  rw [hsig] at hbit htest
  rw [signalled, decide_eq_true_eq, hbit, htest]
  unfold c_sig c_err at *
  by_cases hone : v / 0x40000000 % 2 = 1
  · simp only [hone, decide_true, Bool.toNat_true]
    omega
  simp only [hone, decide_false, Bool.toNat_false]
  omega

theorem Valid.word_lt (h : c.Valid) : c.word + 1 < c_err := by
  have := h.token
  have := h.readers
  have := h.few
  have := h.room
  unfold word
  unfold c_one at *
  unfold c_sig c_err
  omega

/-- The rule in numbers. -/
theorem shows_iff : c.Shows v ↔ c.holding + c.signalling + c.pending ≤ 1 ∧
    (c.reading ≠ 0 → c.holding + c.signalling + c.pending = 0) ∧ c.reading < c_one ∧
    c.holding + c.queued < 0x10000 ∧ v = c_one * (c.holding + c.queued) + c.reading + c_sig * c.pending :=
  ⟨fun h => ⟨h.valid.token, h.valid.readers, h.valid.few, h.valid.room, h.word⟩,
    fun ⟨htoken, hreaders, hfew, hroom, hword⟩ => ⟨⟨htoken, hreaders, hfew, hroom⟩, hword⟩⟩

theorem Shows.lt_c_err (h : c.Shows v) : v < c_err := by
  rw [h.word]
  exact Nat.lt_of_succ_lt h.valid.word_lt

theorem Shows.signalled (h : c.Shows v) (hsig : signalled v) : c_sig ≤ v :=
  (signalled_iff h.lt_c_err).mp hsig

/-- A thread that has the mutex is in the word. -/
theorem Shows.c_one_le {h : Hold} (hv : (c.join h 0 0).Shows v) (hw : h.writes ≠ 0) : c_one ≤ v := by
  rw [hv.word]
  simp only [join, Counts.word, c_one]
  omega

theorem Shows.one_le {h : Hold} (hv : (c.join h 0 0).Shows v) (hr : h.reads ≠ 0) : 1 ≤ v := by
  rw [hv.word]
  simp only [join, Counts.word, c_one]
  omega

end Counts

theorem sub_eq {a b : Nat} (hle : b ≤ a) (hlt : a < c_err) : sub a b = a - b := by
  simp only [sub, c_err] at *
  omega

open Counts Signal

def Flow.weight {P : Type} (w : P → Nat) : Flow P → Nat
  | .goto pc => w pc
  | _ => 0

/-- The call goes on to a place at which it knows what it has to, and does not die. -/
def Flow.Leads {P : Type} (sound : P → Prop) : Flow P → Prop
  | .goto pc => sound pc
  | .die => False
  | _ => True

section Kept

variable {P : Type} {queued signalling : P → Nat} {sound : Hold → P → Prop} {c : Counts} {h : Hold}
  {pc : P} {turn : Turn P}

/-- The counts after an operation of a thread; `c` are those of all others. -/
def Turn.after (turn : Turn P) (queued signalling : P → Nat) (c : Counts) (h : Hold) : Counts :=
  { c with pending := turn.signal.apply c.pending }.join (turn.effect.apply h)
    (turn.flow.weight queued) (turn.flow.weight signalling)

/-- The operation keeps the rule, and does not find it broken. -/
structure Kept (queued signalling : P → Nat) (sound : Hold → P → Prop) (c : Counts) (h : Hold) (pc : P)
    (turn : Turn P) : Prop where
  valid : (turn.after queued signalling c h).Valid
  word : turn.value = (turn.after queued signalling c h).word
  leads : turn.flow.Leads (sound (turn.effect.apply h))
  manned : (c.join h (queued pc) (signalling pc)).Manned → (turn.after queued signalling c h).Manned

/-- The operation is a load, or an exchange that fails. -/
theorem Kept.stay {value : Nat} {flow : Flow P} (hv : (c.join h (queued pc) (signalling pc)).Shows value)
    (hleads : flow.Leads (sound h)) (hq : flow.weight queued = queued pc)
    (hs : flow.weight signalling = signalling pc) : Kept queued signalling sound c h pc { value, flow } := by
  have hafter : (Turn.mk value flow .keep .keep).after queued signalling c h =
      c.join h (queued pc) (signalling pc) := by
    rw [Turn.after, hq, hs]
    rfl
  refine ⟨?_, ?_, hleads, ?_⟩
  · rw [hafter]
    exact hv.valid
  · rw [hafter]
    exact hv.word
  rw [hafter]
  exact id

/-- A call within another. -/
theorem Kept.map {Q : Type} {queued' signalling' : Q → Nat} {sound' : Hold → Q → Prop} {f : P → Q}
    (hk : Kept queued signalling sound c h pc turn) (hq : ∀ pc, queued' (f pc) = queued pc)
    (hs : ∀ pc, signalling' (f pc) = signalling pc) (hsound : ∀ h pc, sound h pc → sound' h (f pc)) :
    Kept queued' signalling' sound' c h (f pc) (turn.map f) := by
  have hweight : ∀ (w : P → Nat) (w' : Q → Nat), (∀ pc, w' (f pc) = w pc) →
      (turn.flow.map f).weight w' = turn.flow.weight w := by
    intro w w' hw
    cases turn.flow with
    | goto pc => exact hw pc
    | done | fail | die => rfl
  have hafter : (turn.map f).after queued' signalling' c h = turn.after queued signalling c h := by
    rw [Turn.after, Turn.after, Turn.map, hweight _ _ hq, hweight _ _ hs]
  refine ⟨?_, ?_, ?_, ?_⟩
  · rw [hafter]
    exact hk.valid
  · rw [hafter]
    exact hk.word
  · have hleads := hk.leads
    rw [Turn.map]
    cases hflow : turn.flow with
    | goto pc =>
      rw [hflow] at hleads
      exact hsound _ _ hleads
    | die =>
      rw [hflow] at hleads
      exact hleads.elim
    | done | fail => trivial
  rw [hafter, hq, hs]
  exact hk.manned

end Kept

/-! ## The operations

Each of the following is one kind of operation and leaves the counts to arithmetic: before it they make
up a valid word, and after it they do again. -/

namespace Kept

variable {P : Type} {queued signalling : P → Nat} {sound : Hold → P → Prop} {c : Counts} {h : Hold}
  {pc : P} {flow : Flow P} {value n : Nat}

theorem of_shows {turn : Turn P} (hleads : turn.flow.Leads (sound (turn.effect.apply h)))
    (hshows : (turn.after queued signalling c h).Shows turn.value ∧
      ((c.join h (queued pc) (signalling pc)).Manned → (turn.after queued signalling c h).Manned)) :
    Kept queued signalling sound c h pc turn :=
  ⟨hshows.1.valid, hshows.1.word, hleads, hshows.2⟩

/-- A writer takes a free mutex. No release may be on its way to signal. -/
theorem takeFree (hv : (c.join h 0 0).Shows 0) (hfree : c.signalling = 0)
    (hleads : flow.Leads (sound (Effect.addWrite.apply h))) (hq : flow.weight queued = 0)
    (hs : flow.weight signalling = 0) :
    Kept queued signalling sound c h pc { value := c_one, flow, effect := .addWrite } := by
  refine of_shows hleads ?_
  simp only [shows_iff, Turn.after, join, apply, Effect.apply, Manned, hq, hs, c_one, c_sig] at *
  omega

/-- A writer that waited takes the signal. -/
theorem takeSignal (hv : (c.join h 1 0).Shows value) (hsig : c_sig ≤ value) (hq : queued pc = 1)
    (hs : signalling pc = 0) (hleads : flow.Leads (sound (Effect.addWrite.apply h)))
    (hq' : flow.weight queued = 0) (hs' : flow.weight signalling = 0) :
    Kept queued signalling sound c h pc { value := sub value c_sig, flow, effect := .addWrite, signal := .take } := by
  refine of_shows hleads ?_
  simp only [shows_iff, Turn.after, join, apply, Effect.apply, Manned, hq, hs, hq', hs', sub, c_one, c_sig] at *
  omega

/-- A release signals. -/
theorem signal (hv : (c.join h 0 1).Shows value) :
    Kept queued signalling sound c h pc { value := add value c_sig, flow := .done, signal := .give } := by
  refine of_shows trivial ?_
  simp only [shows_iff, Turn.after, join, apply, Effect.apply, Manned, Flow.weight, add, c_one, c_sig] at *
  omega

section

variable (hv : (c.join h 0 0).Shows value)

include hv

/-- A writer that did not wait takes the signal. -/
theorem stealWrite (hsig : c_sig ≤ value) (hroom : value % c_sig + c_one < c_sig) (hq : queued pc = 0)
    (hs : signalling pc = 0) : Kept queued signalling sound c h pc
      { value := add (sub value c_sig) c_one, flow := .done, effect := .addWrite, signal := .take } := by
  refine of_shows trivial ?_
  simp only [shows_iff, Turn.after, join, apply, Effect.apply, Manned, Flow.weight, hq, hs, add, sub, c_one, c_sig] at *
  omega

/-- A writer begins to wait. -/
theorem enqueue (hroom : value % c_sig + c_one < c_sig) (hq : queued pc = 0) (hs : signalling pc = 0)
    (hleads : flow.Leads (sound h)) (hq' : flow.weight queued = 1) (hs' : flow.weight signalling = 0) :
    Kept queued signalling sound c h pc { value := add value c_one, flow } := by
  refine of_shows hleads ?_
  simp only [shows_iff, Turn.after, join, apply, Effect.apply, Manned, hq, hs, hq', hs', add, c_one, c_sig] at *
  omega

/-- A writer releases the mutex, and has to signal if someone waits. -/
theorem dropWrite (hhold : h.writes ≠ 0) (hleads : flow.Leads (sound (Effect.dropWrite.apply h)))
    (hq' : flow.weight queued = 0) (hs' : flow.weight signalling = n)
    (hn : value = c_one ∧ n = 0 ∨ value ≠ c_one ∧ n = 1) :
    Kept queued signalling sound c h pc { value := sub value c_one, flow, effect := .dropWrite } := by
  refine of_shows hleads ?_
  simp only [shows_iff, Turn.after, join, apply, Effect.apply, Manned, hq', hs', sub, c_one, c_sig] at *
  omega

/-- A reader joins, while no writer has the mutex or waits for it. -/
theorem read (hfree : c.Manned) (hlow : value < c_one - 1) :
    Kept queued signalling sound c h pc { value := add value 1, flow := .done, effect := .addRead } := by
  refine of_shows trivial ?_
  simp only [shows_iff, Turn.after, join, apply, Effect.apply, Manned, Flow.weight, add, c_one, c_sig] at *
  omega

/-- A reader takes the signal. -/
theorem stealRead (hsig : c_sig ≤ value) : Kept queued signalling sound c h pc
      { value := add (sub value c_sig) 1, flow := .done, effect := .addRead, signal := .take } := by
  refine of_shows trivial ?_
  simp only [shows_iff, Turn.after, join, apply, Effect.apply, Manned, Flow.weight, add, sub, c_one, c_sig] at *
  omega

/-- A writer becomes a reader. -/
theorem downgrade (hhold : h.writes ≠ 0) : Kept queued signalling sound c h pc (lockDowngrade value) := by
  refine of_shows trivial ?_
  simp only [shows_iff, Turn.after, join, apply, Effect.apply, Manned, lockDowngrade, Flow.weight, sub,
    c_one, c_sig] at *
  omega

/-- A reader leaves, and has to signal if it was the last one and someone waits. -/
theorem dropRead (hhold : h.reads ≠ 0) (hleads : flow.Leads (sound (Effect.dropRead.apply h)))
    (hq' : flow.weight queued = 0) (hs' : flow.weight signalling = n)
    (hn : (c_one ≤ value ∧ value % c_one = 1) ∧ n = 1 ∨ ¬ (c_one ≤ value ∧ value % c_one = 1) ∧ n = 0) :
    Kept queued signalling sound c h pc { value := sub value 1, flow, effect := .dropRead } := by
  refine of_shows hleads ?_
  simp only [shows_iff, Turn.after, join, apply, Effect.apply, Manned, hq', hs', sub, c_one, c_sig] at *
  omega

/-- The only reader becomes a writer. -/
theorem upgrade (hhold : h.reads ≠ 0) (hroom : value % c_sig + c_one - 1 < c_sig) (hlast : value % c_one = 1) :
    Kept queued signalling sound c h pc { value := add value (c_one - 1), flow := .done, effect := .upgrade } := by
  refine of_shows trivial ?_
  simp only [shows_iff, Turn.after, join, apply, Effect.apply, Manned, Flow.weight, add, c_one, c_sig] at *
  omega

/-- A reader among others becomes a writer that waits. -/
theorem convert (hhold : h.reads ≠ 0) (hroom : value % c_sig + c_one - 1 < c_sig) (hmore : value % c_one ≠ 1)
    (hleads : flow.Leads (sound (Effect.dropRead.apply h))) (hq' : flow.weight queued = 1)
    (hs' : flow.weight signalling = 0) :
    Kept queued signalling sound c h pc { value := add value (c_one - 1), flow, effect := .dropRead } := by
  refine of_shows hleads ?_
  simp only [shows_iff, Turn.after, join, apply, Effect.apply, Manned, hq', hs', add, c_one, c_sig] at *
  omega

end

end Kept

end Rpcsx.Rx.SharedMutex
