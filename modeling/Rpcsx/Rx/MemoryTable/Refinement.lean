import Rpcsx.Lib.Run
import Rpcsx.Rx.MemoryTable.Areas

/-!
# The table refines a partial function

What the table is for: it remembers, for every address, the payload of the last `map` over it that
no `unmap` has taken back. `latest` says this over the log of the calls, with no reference to
markers; `step_simulates` shows that every call on the key map does what the log says, and
`run_refines_latest` carries it over whole runs from the empty table.
-/

namespace Rpcsx.Rx

open Lib

namespace MemoryTableWithPayload

variable {T : Type}

/-! ## The payload in force after each operation -/

section ValueAt

variable {t t' : MemoryTableWithPayload T}

theorem WF.valueAt_unmapAt (hwf : t.WF) {k k' : Nat} {d : T} (harea : t.IsArea k k' d) :
    ∃ t', t.unmapAt k = some (t', t.iterNext k) ∧ t'.WF ∧
      ∀ a, t'.valueAt a = if a ∈ AddressRange.mk k k' then none else t.valueAt a := by
  obtain ⟨t', hstep, hwf', hspec⟩ := hwf.unmapAt_spec harea
  refine ⟨t', hstep, hwf', fun a => ?_⟩
  unfold valueAt
  rw [hspec]
  simp only [AddressRange.mem_def]
  split <;> rfl

variable [Inhabited T] [DecidableEq T] {r : AddressRange}

theorem WF.valueAt_map (hwf : t.WF) (hr : r.isValid) (p : T) (merge : Bool) :
    ∃ t' it, t.map r p merge false = some (t', it) ∧ t'.WF ∧
      ∀ a, t'.valueAt a = if a ∈ r then some p else t.valueAt a := by
  obtain ⟨b, e⟩ := r
  have hbe : b < e := AddressRange.isValid_iff.mp hr
  obtain ⟨t', hmap, hwf', hspec⟩ := hwf.map_spec hbe p merge
  refine ⟨t', _, hmap, hwf', fun a => ?_⟩
  unfold valueAt
  rw [hspec, mappedArea]
  refine AddressRange.ite_range _ (fun _ => rfl) fun _ => ?_
  cases t.areaOf a with
  | none => rfl
  | some kd =>
    -- the area that reaches over the end may begin elsewhere now, with the same payload
    obtain ⟨k, d⟩ := kd
    by_cases hek : e < k
    · simp [hek]
    by_cases hm : merge ∧ d = p
    · simp [hek, hm]
    · simp [hek, hm]

theorem WF.valueAt_unmap (hwf : t.WF) (hr : r.isValid) : ∃ t' it, t.unmap r = some (t', it) ∧ t'.WF ∧
      ∀ a, t'.valueAt a = if a ∈ r then none else t.valueAt a := by
  obtain ⟨b, e⟩ := r
  have hbe : b < e := AddressRange.isValid_iff.mp hr
  obtain ⟨t', it, hunmap, hwf', hspec⟩ := hwf.unmap_spec hbe
  refine ⟨t', it, hunmap, hwf', fun a => ?_⟩
  unfold valueAt
  rw [hspec, unmappedArea]
  refine AddressRange.ite_range _ (fun _ => rfl) fun _ => ?_
  rw [Option.map_map]
  rfl

end ValueAt

/-! ## The abstract table -/

/-- What a call did to the addresses of a range: set them to a payload, or took them back. -/
abbrev Log (T : Type) := List (AddressRange × Option T)

/-- The payload of the most recent `map` over `a` that no later `unmap` covers; the log is read
from the latest call back. -/
def latest (log : Log T) (a : Nat) : Option T :=
  (log.find? fun x => a ∈ x.1).bind Prod.snd

theorem latest_cons (r : AddressRange) (v : Option T) (log : Log T) (a : Nat) :
    latest ((r, v) :: log) a = if a ∈ r then v else latest log a := by by_cases h : a ∈ r <;> simp [latest, h]

/-! ## Runs -/

inductive Op (T : Type) where
  | map (range : AddressRange) (payload : T) (merge : Bool)
  | unmap (range : AddressRange)
  | unmapAt (it : Nat)

structure Traced (T : Type) where
  table : MemoryTableWithPayload T
  log : Log T

/-- What the caller of an operation has to provide: a valid range, or an iterator that points to
an area. -/
def Op.Legal (s : Traced T) : Op T → Prop
  | .map range _ _ => range.isValid = true
  | .unmap range => range.isValid = true
  | .unmapAt it => ∃ x ∈ s.table.areas, x.1.beginAddress = it

variable [Inhabited T] [DecidableEq T] {s : Traced T}

/-- One call. `unmap(iterator)` is logged with the range the iterator has. -/
def Op.step (s : Traced T) : Op T → Option (Traced T)
  | .map range payload merge =>
    (s.table.map range payload merge false).map fun x => ⟨x.1, (range, some payload) :: s.log⟩
  | .unmap range => (s.table.unmap range).map fun x => ⟨x.1, (range, none) :: s.log⟩
  | .unmapAt it =>
    (s.table.range? it).bind fun range =>
      (s.table.unmapAt it).map fun x => ⟨x.1, (range, none) :: s.log⟩

/-- The simulation: the bracket invariant, and the payloads the log prescribes. -/
structure Simulates (s : Traced T) : Prop where
  wf : s.table.WF
  valueAt_eq : ∀ a, s.table.valueAt a = latest s.log a

omit [Inhabited T] [DecidableEq T] in
theorem simulates_empty : Simulates (⟨empty, []⟩ : Traced T) := ⟨rfl, fun _ => rfl⟩

/-- Every legal call succeeds and keeps the simulation. -/
theorem step_simulates (h : Simulates s) {op : Op T} (hop : op.Legal s) : ∃ s', op.step s = some s' ∧ Simulates s' := by
  cases op with
  | map range payload merge =>
    obtain ⟨t', it, hmap, hwf', hval⟩ := h.wf.valueAt_map hop payload merge
    refine ⟨⟨t', (range, some payload) :: s.log⟩, by simp [Op.step, hmap], hwf', fun a => ?_⟩
    rw [latest_cons, hval, h.valueAt_eq]
  | unmap range =>
    obtain ⟨t', it, hunmap, hwf', hval⟩ := h.wf.valueAt_unmap hop
    refine ⟨⟨t', (range, none) :: s.log⟩, by simp [Op.step, hunmap], hwf', fun a => ?_⟩
    rw [latest_cons, hval, h.valueAt_eq]
  | unmapAt it =>
    obtain ⟨⟨range, d⟩, hx, rfl⟩ := hop
    have harea := h.wf.mem_areas.mp hx
    obtain ⟨t', hunmap, hwf', hval⟩ := h.wf.valueAt_unmapAt harea
    refine ⟨⟨t', (range, none) :: s.log⟩, ?_, hwf', fun a => ?_⟩
    · simp only [Op.step, harea.range?_eq, Option.bind_some, hunmap, Option.map_some]
    · rw [latest_cons, hval, h.valueAt_eq]

theorem run_simulates {ops : List (Op T)}
    (h : Run (fun s op => Op.step s op) Op.Legal ⟨empty, []⟩ ops s) : Simulates s := by
  refine h.invariant simulates_empty fun s op s' hs hop hstep => ?_
  obtain ⟨s'', hstep', hs''⟩ := step_simulates hs hop
  rw [hstep] at hstep'
  cases hstep'
  exact hs''

/-- **The table refines a partial function.** In every state reached from the empty table by legal
calls the markers are a bracket sequence, `queryArea` finds the payload of the latest `map` that
was not taken back (`end()` when there is none), iteration lists valid ranges in increasing order
without overlap that together hold exactly the mapped addresses, and every further legal call
succeeds. -/
theorem run_refines_latest {ops : List (Op T)} {s : Traced T}
    (h : Run (fun s op => Op.step s op) Op.Legal ⟨empty, []⟩ ops s) : s.table.WF ∧
    (∀ a, (s.table.queryArea a).bind s.table.get? = latest s.log a) ∧
    (∀ a, s.table.queryArea a = none ↔ latest s.log a = none) ∧ (∀ x ∈ s.table.areas, x.1.isValid = true) ∧
    s.table.areas.Pairwise (fun x y => x.1.endAddress ≤ y.1.beginAddress) ∧
    (∀ a d, (∃ r, (r, d) ∈ s.table.areas ∧ a ∈ r) ↔ latest s.log a = some d) ∧
    (∀ op : Op T, op.Legal s → ∃ s', op.step s = some s') := by
  have hs := run_simulates h
  have hquery : ∀ a, (s.table.queryArea a).bind s.table.get? = s.table.valueAt a := by
    intro a
    rw [hs.wf.queryArea_eq, valueAt]
    cases harea : s.table.areaOf a with
    | none => rfl
    | some kd =>
      obtain ⟨k', hk, -, -⟩ := hs.wf.areaOf_eq_some.mp harea
      exact hk.get?_eq
  refine ⟨hs.wf, fun a => ?_, fun a => ?_, fun x hx => hs.wf.areas_valid hx,
    hs.wf.areas_pairwise, fun a d => ?_, fun op hop => ?_⟩
  · rw [hquery, hs.valueAt_eq]
  · rw [hs.wf.queryArea_eq, ← hs.valueAt_eq, valueAt]
    simp
  · rw [hs.wf.mem_areas_iff_valueAt, hs.valueAt_eq]
  obtain ⟨s', hstep, -⟩ := step_simulates hs hop
  exact ⟨s', hstep⟩

/-- The run `map [0, 16) 1; map [4, 8) 2; unmap [6, 12)` and what it leaves. -/
theorem run_refines_latest_three : ∃ s : Traced Nat, Run (fun s op => Op.step s op) Op.Legal ⟨empty, []⟩
      [.map ⟨0, 16⟩ 1 true, .map ⟨4, 8⟩ 2 true, .unmap ⟨6, 12⟩] s ∧
    s.table.areas = [(⟨0, 4⟩, 1), (⟨4, 6⟩, 2), (⟨12, 16⟩, 1)] ∧
    (s.table.queryArea 5).bind s.table.get? = latest s.log 5 :=
  Run.exists_and (.cons (by simp [Op.Legal]) rfl (.cons (by simp [Op.Legal]) rfl
    (.cons (by simp [Op.Legal]) rfl (.nil _)))) (by decide) fun h => (run_refines_latest h).2.1 5

end MemoryTableWithPayload

end Rpcsx.Rx
