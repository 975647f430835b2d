import Mathlib.Tactic.NormNum
import Rpcsx.Lib.Codec
import Rpcsx.Kernel.MemoryResource.Edits
import Rpcsx.Orbis.Fmem
import Rpcsx.Rx.MemoryTable.Refinement

/-!
# Savestates of a resource

`serialize` writes the areas of the table one after another and closes with a pair of all-ones
words; `deserialize` reads them back and rebuilds the table with `allocations.map`. It calls `map`
with its default argument `merge = true` (the table's own `deserialize` passes `false`), so two areas
that touch and have equal records come back as one. `roundTrips_iff_separated`: this is the only
thing that can go wrong.
-/

namespace Rpcsx.Kernel

open Lib Rx MemoryTableWithPayload List Option

/-- `AllocableResource<AllocationT, Allocator, Resource>`: the base class and the table. -/
structure AllocableResource (R A : Type) where
  base : R
  allocations : MemoryTableWithPayload A

namespace AllocableResource

variable {R A : Type} [Inhabited A] [DecidableEq A] {s t : Allocations A}

def allOnes : Nat := 0xffffffffffffffff

def encodeArea (ac : Codec A) (x : AddressRange × A) : List UInt8 :=
  leBytes 8 x.1.beginAddress ++ (leBytes 8 x.1.endAddress ++ ac.encode x.2)

def endMark : List UInt8 := leBytes 8 allOnes ++ leBytes 8 allOnes

omit [Inhabited A] [DecidableEq A] in
def serialize (rc : Codec R) (ac : Codec A) (r : AllocableResource R A) : List UInt8 :=
  rc.encode r.base ++ (r.allocations.areas.flatMap (encodeArea ac) ++ endMark)

/-- The loop of `deserialize`. The result is `none` when the failure flag is set. -/
def deserializeLoop (ac : Codec A) : Nat → List UInt8 → Allocations A → Option (Allocations A × List UInt8)
  | 0, _, _ => none
  | fuel + 1, bytes, t =>
    (readWord 8 bytes).bind fun (beginAddress, bytes) =>
    (readWord 8 bytes).bind fun (endAddress, bytes) =>
    if beginAddress = endAddress ∧ beginAddress = allOnes then some (t, bytes)
    else if !(AddressRange.fromBeginEnd beginAddress endAddress).isValid then none
    else
      (ac.decode bytes).bind fun (allocation, bytes) =>
      (t.map (.fromBeginEnd beginAddress endAddress) allocation true false).bind fun (t, _) =>
      deserializeLoop ac fuel bytes t

/-- `deserialize`, into a resource that may hold something already. -/
def deserialize (rc : Codec R) (ac : Codec A) (r : AllocableResource R A) (bytes : List UInt8) :
    Option (AllocableResource R A × List UInt8) :=
  (rc.decode bytes).bind fun (base, bytes) =>
  (deserializeLoop ac (bytes.length + 1) bytes r.allocations).map fun (t, bytes) => (⟨base, t⟩, bytes)

/-! ## What the decoder does with the bytes of the encoder -/

def rebuild : List (AddressRange × A) → Allocations A → Option (Allocations A)
  | [], t => some t
  | x :: xs, t => (t.map x.1 x.2 true false).bind fun y => rebuild xs y.1

theorem readWord_u64 {n : Nat} (h : n < 2 ^ 64) (rest : List UInt8) :
    readWord 8 (leBytes 8 n ++ rest) = some (n, rest) :=
  readWord_leBytes (lt_of_lt_of_eq h (by norm_num)) rest

/-- The loop reads what was written, up to the end mark and not further. -/
theorem deserializeLoop_eq (ac : Codec A) {l : List (AddressRange × A)} {fuel : Nat}
    {t : Allocations A} (hvalid : ∀ x ∈ l, x.1.beginAddress < x.1.endAddress)
    (h64 : ∀ x ∈ l, x.1.endAddress < 2 ^ 64) (hfuel : l.length < fuel) (rest : List UInt8) :
    deserializeLoop ac fuel (l.flatMap (encodeArea ac) ++ endMark ++ rest) t =
      (rebuild l t).map fun t' => (t', rest) := by
  induction l generalizing fuel t with
  | nil =>
    obtain ⟨fuel, rfl⟩ : ∃ f, fuel = f + 1 := ⟨fuel - 1, by simp at hfuel; omega⟩
    have hones : allOnes < 2 ^ 64 := by decide
    rw [flatMap_nil, nil_append, endMark, append_assoc, deserializeLoop, readWord_u64 hones]
    simp only [bind_some, readWord_u64 hones, and_self, if_true]
    rfl
  | cons x l ih =>
    obtain ⟨fuel, rfl⟩ : ∃ f, fuel = f + 1 := ⟨fuel - 1, by simp at hfuel; omega⟩
    obtain ⟨⟨b, e⟩, p⟩ := x
    have hbe : b < e := hvalid _ mem_cons_self
    have he : e < 2 ^ 64 := h64 _ mem_cons_self
    have hne : ¬ (b = e ∧ b = allOnes) := fun h => hbe.ne h.1
    have hv : (!(AddressRange.fromBeginEnd b e).isValid) = false := by simpa [AddressRange.fromBeginEnd] using hbe
    rw [flatMap_cons, encodeArea, deserializeLoop]
    simp only [append_assoc, readWord_u64 (lt_trans hbe he), bind_some,
      readWord_u64 he, if_neg hne, hv, Bool.false_eq_true, if_false, ac.decode_encode, rebuild]
    cases hmap : t.map (AddressRange.fromBeginEnd b e) p true false with
    | none =>
      have hmap' : t.map ⟨b, e⟩ p true false = none := hmap
      rw [hmap']; rfl
    | some y =>
      have hmap' : t.map ⟨b, e⟩ p true false = some y := hmap
      rw [hmap']
      simp only [bind_some]
      have hrec := @ih fuel y.1 (fun z hz => hvalid z (mem_cons_of_mem _ hz))
        (fun z hz => h64 z (mem_cons_of_mem _ hz)) (by simpa using hfuel)
      simpa only [append_assoc] using hrec

/-- So `deserialize` after `serialize` rebuilds the table from its areas, and consumes exactly the
bytes written. -/
theorem deserialize_serialize (rc : Codec R) (ac : Codec A) (r fresh : AllocableResource R A) (hwf : r.allocations.WF)
    (h64 : ∀ x ∈ r.allocations.areas, x.1.endAddress < 2 ^ 64) (rest : List UInt8) :
    deserialize rc ac fresh (serialize rc ac r ++ rest) =
      (rebuild r.allocations.areas fresh.allocations).map fun t => (⟨r.base, t⟩, rest) := by
  have hvalid : ∀ x ∈ r.allocations.areas, x.1.beginAddress < x.1.endAddress := fun x hx =>
    AddressRange.isValid_iff.mp (hwf.areas_valid hx)
  have hlen : r.allocations.areas.length <
      (r.allocations.areas.flatMap (encodeArea ac) ++ endMark ++ rest).length + 1 := by
    have : r.allocations.areas.length ≤ (r.allocations.areas.flatMap (encodeArea ac)).length := by
      induction r.allocations.areas with
      | nil => simp
      | cons x l ih =>
        rw [flatMap_cons, length_append, encodeArea]
        simp only [length_append, length_leBytes, length_cons]
        omega
    simp only [length_append]
    omega
  rw [deserialize, serialize, append_assoc, rc.decode_encode]
  simp only [bind_some, deserializeLoop_eq ac hvalid h64 hlen, Option.map_map]
  rfl

/-! ## What is rebuilt -/

def Separated (t : Allocations A) : Prop :=
  ∀ k₁ k₂ k₃ d, t.IsArea k₁ k₂ d → ¬ t.IsArea k₂ k₃ d

def InAreas (l : List (AddressRange × A)) (a : Nat) : Prop := ∃ x ∈ l, a ∈ x.1

/-- `t` is what the decoder has made of the areas `done` of the table `s`: the payloads are right in
any case; touching areas with equal records have been joined; and when there are none of these, the
areas are right as well. -/
structure Rebuilt (s t : Allocations A) (done : List (AddressRange × A)) : Prop where
  wf : t.WF
  valueAt_in : ∀ a, InAreas done a → t.valueAt a = s.valueAt a
  valueAt_out : ∀ a, ¬ InAreas done a → t.valueAt a = none
  joined : ∀ k₁ k₂ k₃ d, (⟨k₁, k₂⟩, d) ∈ done → (⟨k₂, k₃⟩, d) ∈ done →
    ∃ k, k < k₂ ∧ t.areaOf k₂ = some (k, d)
  exact : Separated s → ∀ a, InAreas done a → t.areaOf a = s.areaOf a

omit [Inhabited A] [DecidableEq A] in
theorem rebuilt_nil (s : Allocations A) : Rebuilt s empty [] where
  wf := rfl
  valueAt_in := by rintro a ⟨x, hx, -⟩; cases hx
  valueAt_out := fun _ _ => rfl
  joined := by intro k₁ k₂ k₃ d hx; cases hx
  exact := by rintro - a ⟨x, hx, -⟩; cases hx

omit [Inhabited A] [DecidableEq A] in
theorem inAreas_append {l l' : List (AddressRange × A)} {a : Nat} :
    InAreas (l ++ l') a ↔ InAreas l a ∨ InAreas l' a := by simp [InAreas, or_and_right, exists_or]

/-- One turn of the loop. `x` is the next area of `s`, above those done. -/
theorem Rebuilt.step {done : List (AddressRange × A)} {b e : Nat} {p : A} (h : Rebuilt s t done) (hs : s.WF)
    (hdone : ∀ y ∈ done, y ∈ s.areas ∧ y.1.endAddress ≤ b) (hx : (⟨b, e⟩, p) ∈ s.areas) :
    ∃ t' it, t.map ⟨b, e⟩ p true false = some (t', it) ∧ Rebuilt s t' (done ++ [(⟨b, e⟩, p)]) := by
  have hxarea : s.IsArea b e p := hs.mem_areas.mp hx
  have hbe : b < e := hxarea.lt
  have hone : ∀ a, InAreas [((⟨b, e⟩ : AddressRange), p)] a ↔ b ≤ a ∧ a < e := fun a => by
    simp [InAreas, AddressRange.mem_def]
  have hbelow : ∀ a, InAreas done a → a < b := by
    rintro a ⟨y, hy, ha⟩
    exact lt_of_lt_of_le (AddressRange.mem_def.mp ha).2 (hdone y hy).2
  -- nothing is at or above `b` yet
  have hnone : ∀ a, b ≤ a → t.areaOf a = none := by
    intro a ha
    have hval := h.valueAt_out a fun hin => absurd (hbelow a hin) (not_lt.mpr ha)
    simpa [valueAt] using hval
  obtain ⟨t', hmap, hwf', harea⟩ := h.wf.map_spec hbe p true
  have hleft : ∀ a, a < b → t'.areaOf a = t.areaOf a := by
    intro a ha
    rw [harea, mappedArea, if_pos ha]
  have hin : ∀ a, b ≤ a → a < e → t'.areaOf a = some (t.mergedBegin b p true, p) := by
    intro a h1 h2
    rw [harea, mappedArea, if_neg (not_lt.mpr h1), if_pos h2]
  have hright : ∀ a, e ≤ a → t'.areaOf a = none := by
    intro a ha
    rw [harea, mappedArea, if_neg (not_lt.mpr (le_trans hbe.le ha)), if_neg (not_lt.mpr ha),
      hnone a (le_trans hbe.le ha)]
  refine ⟨t', _, hmap, hwf', fun a ha => ?_, fun a ha => ?_, ?_, fun hsep a ha => ?_⟩
  · rw [inAreas_append, hone] at ha
    rcases ha with ha | ha
    · rw [valueAt, hleft a (hbelow a ha)]
      exact h.valueAt_in a ha
    rw [valueAt, hin a ha.1 ha.2, valueAt, hxarea.areaOf_eq ha.1 ha.2]; rfl
  · rw [inAreas_append, hone, not_or] at ha
    by_cases hab : a < b
    · rw [valueAt, hleft a hab]
      exact h.valueAt_out a ha.1
    have hea : e ≤ a := not_lt.mp fun hae => ha.2 ⟨not_lt.mp hab, hae⟩
    rw [valueAt, hright a hea]; rfl
  · -- a pair that touches is joined when its second area is mapped, and stays joined
    intro k₁ k₂ k₃ d h1 h2
    have hlt : k₁ < k₂ := by
      have hmem : ((⟨k₁, k₂⟩ : AddressRange), d) ∈ s.areas := by
        rcases mem_append.mp h1 with h1 | h1
        · exact (hdone _ h1).1
        · rw [mem_singleton.mp h1]; exact hx
      exact (hs.mem_areas.mp hmem).lt
    rcases mem_append.mp h2 with h2 | h2
    · have hk2b : k₂ < b := by
        have hk3 : k₃ ≤ b := (hdone _ h2).2
        exact lt_of_lt_of_le (hs.mem_areas.mp (hdone _ h2).1).lt hk3
      rw [hleft k₂ hk2b]
      rcases mem_append.mp h1 with h1 | h1
      · exact h.joined k₁ k₂ k₃ d h1 h2
      simp only [mem_singleton, Prod.mk.injEq, AddressRange.mk.injEq] at h1
      omega
    simp only [mem_singleton, Prod.mk.injEq, AddressRange.mk.injEq] at h2
    obtain ⟨⟨rfl, rfl⟩, rfl⟩ := h2
    have h1' : ((⟨k₁, k₂⟩ : AddressRange), d) ∈ done := by
      rcases mem_append.mp h1 with h1 | h1
      · exact h1
      simp only [mem_singleton, Prod.mk.injEq, AddressRange.mk.injEq] at h1
      omega
    have hbefore : InAreas done (k₂ - 1) :=
      ⟨_, h1', AddressRange.mem_def.mpr ⟨Nat.le_sub_one_of_lt hlt, Nat.sub_lt (by omega) one_pos⟩⟩
    have hval : t.valueAt (k₂ - 1) = some d := by
      rw [h.valueAt_in _ hbefore, valueAt, (hs.mem_areas.mp (hdone _ h1').1).areaOf_eq (Nat.le_sub_one_of_lt hlt)
          (Nat.sub_lt (by omega) one_pos)]
      rfl
    obtain ⟨⟨k, d'⟩, hk, rfl⟩ := map_eq_some_iff.mp hval
    have hkle : k ≤ k₂ - 1 := (h.wf.areaOf_eq_some.mp hk).choose_spec.2.1
    have hmerged : t.mergedBegin k₂ d' true = k := by
      have hb : t.areaBefore k₂ = some (k, d') := by rw [show k₂ = (k₂ - 1) + 1 by omega, areaBefore_succ, hk]
      simp [mergedBegin, hb]
    exact ⟨k, by omega, by rw [hin k₂ (le_refl _) hbe, hmerged]⟩
  -- a separated area is not joined to the left
  rw [inAreas_append, hone] at ha
  rcases ha with ha | ha
  · rw [hleft a (hbelow a ha)]
    exact h.exact hsep a ha
  rw [hin a ha.1 ha.2, hxarea.areaOf_eq ha.1 ha.2]
  have hmerged : t.mergedBegin b p true = b := by
    rw [mergedBegin]
    cases hb : t.areaBefore b with
    | none => rfl
    | some kd =>
      obtain ⟨k, d⟩ := kd
      obtain ⟨a', rfl, hkd⟩ := exists_of_areaBefore hb
      have hin' : InAreas done a' := by
        by_contra hout
        have hval := h.valueAt_out a' hout
        rw [valueAt, hkd] at hval
        cases hval
      have hsa : s.areaOf a' = some (k, d) := by rw [← h.exact hsep a' hin', hkd]
      obtain ⟨k', hk', h1, h2⟩ := hs.areaOf_eq_some.mp hsa
      -- the area of `s` before `b` ends at `b`
      obtain rfl : k' = a' + 1 := le_antisymm (hk'.le_begin hxarea (Nat.lt_succ_of_le h1)) h2
      have hdp : ¬ (true = true ∧ d = p) := by
        rintro ⟨-, rfl⟩
        exact hsep _ _ _ _ hk' hxarea
      exact if_neg hdp
  rw [hmerged]

/-- The whole loop. -/
theorem Rebuilt.run {done todo : List (AddressRange × A)}
    (h : Rebuilt s t done) (hs : s.WF) (hareas : s.areas = done ++ todo) :
    ∃ t', rebuild todo t = some t' ∧ Rebuilt s t' s.areas := by
  induction todo generalizing t done with
  | nil =>
    rw [append_nil] at hareas
    exact ⟨t, rfl, by rw [hareas]; exact h⟩
  | cons x todo ih =>
    obtain ⟨⟨b, e⟩, p⟩ := x
    have hsorted := hs.areas_pairwise
    rw [hareas, pairwise_append] at hsorted
    obtain ⟨t', it, hmap, h'⟩ := h.step (b := b) (e := e) (p := p) hs
      (fun y hy => ⟨by rw [hareas]; simp [hy], hsorted.2.2 y hy _ mem_cons_self⟩)
      (by rw [hareas]; simp)
    obtain ⟨t'', hrec, hfinal⟩ := ih h' (by rw [hareas]; simp)
    exact ⟨t'', by simp only [rebuild, hmap, bind_some, hrec], hfinal⟩

/-- The rebuilt table is the old one exactly when the old one is separated. -/
theorem rebuild_areas {s : Allocations A} (hs : s.WF) :
    ∃ t, rebuild s.areas empty = some t ∧ (t.areas = s.areas ↔ Separated s) := by
  obtain ⟨t, hrun, h⟩ := (rebuilt_nil s).run hs rfl
  refine ⟨t, hrun, fun hareas k₁ k₂ k₃ d h1 h2 => ?_, fun hsep => ?_⟩
  · obtain ⟨k, hk, hk2⟩ := h.joined k₁ k₂ k₃ d (hs.mem_areas.mpr h1) (hs.mem_areas.mpr h2)
    have h2' : t.IsArea k₂ k₃ d := by
      have hmem : ((⟨k₂, k₃⟩ : AddressRange), d) ∈ t.areas := by
        rw [hareas]
        exact hs.mem_areas.mpr h2
      exact h.wf.mem_areas.mp hmem
    rw [h2'.areaOf_begin] at hk2
    cases hk2
    exact lt_irrefl _ hk
  have heq : t = s := by
    refine h.wf.ext_areaOf hs fun a => ?_
    by_cases ha : InAreas s.areas a
    · exact h.exact hsep a ha
    have hout : t.areaOf a = none := by simpa [valueAt] using h.valueAt_out a ha
    have hsout : s.areaOf a = none := by
      rw [eq_none_iff_forall_not_mem]
      intro kd hkd
      obtain ⟨k', hk', h1, h2⟩ := hs.areaOf_eq_some.mp hkd
      exact ha ⟨(⟨kd.1, k'⟩, kd.2), hs.mem_areas.mpr hk', AddressRange.mem_def.mpr ⟨h1, h2⟩⟩
    rw [hout, hsout]
  rw [heq]

/-! ## The round trip -/

/-- **The round trip of a reachable resource.** Reading a savestate back into an empty resource
yields the same list of areas, and leaves exactly what follows the savestate, if and only if no two
areas that touch have equal records. -/
theorem roundTrips_iff_separated [AllocationInfo A] (rc : Codec R) (ac : Codec A)
    {r fresh : AllocableResource R A} (hreach : Reachable r.allocations)
    (h64 : ∀ x ∈ r.allocations.areas, x.1.endAddress < 0x10000000000000000) (hfresh : fresh.allocations = empty) :
    (∀ rest, ∃ r', deserialize rc ac fresh (serialize rc ac r ++ rest) = some (r', rest) ∧
      r'.base = r.base ∧ r'.allocations.areas = r.allocations.areas) ↔ Separated r.allocations := by
  have hwf := hreach.wf
  obtain ⟨t, hrebuild, hiff⟩ := rebuild_areas hwf
  have hdec : ∀ rest, deserialize rc ac fresh (serialize rc ac r ++ rest) = some (⟨r.base, t⟩, rest) := by
    intro rest
    rw [deserialize_serialize rc ac r fresh hwf h64 rest, hfresh, hrebuild]
    rfl
  rw [← hiff]
  constructor
  · intro h
    obtain ⟨r', hr', -, hareas⟩ := h []
    rw [hdec] at hr'
    cases hr'
    exact hareas
  intro hareas rest
  exact ⟨_, hdec rest, rfl, hareas⟩

section Flexible

open Orbis

def flagCodec : Codec FlexibleMemoryAllocation where
  encode a := [if a.allocated then 1 else 0]
  decode
    | [] => none
    | b :: rest => some (⟨b = 1⟩, rest)
  decode_encode := by rintro ⟨_ | _⟩ rest <;> rfl

def unitCodec : Codec Unit := ⟨fun _ => [], fun rest => some ((), rest), fun _ _ => rfl⟩

def pagesAllocated : Nat → Option FlexibleMemoryResource
  | 0 => create empty ⟨0, 4 * vmem.kPageSize⟩
  | n + 1 => (pagesAllocated n).bind fun t => (fmem.allocate t vmem.kPageSize).map Prod.fst

theorem reachable_pagesAllocated {n : Nat} {t : FlexibleMemoryResource}
    (h : pagesAllocated n = some t) : Reachable t := by
  induction n generalizing t with
  | zero => exact .single (.create h)
  | succ n ih =>
    obtain ⟨t', h', h⟩ := bind_eq_some_iff.mp h
    obtain ⟨x, hx, rfl⟩ := map_eq_some_iff.mp h
    obtain ⟨⟨t'', res⟩, hy, rfl⟩ := map_eq_some_iff.mp hx
    have hstep : Step t' t'' := .map hy
    refine (ih h').tail ?_
    dsimp only
    split
    · exact hstep
    · exact hstep

/-- One page allocated: the areas come back. -/
theorem roundTrips_one_page : ∃ t : FlexibleMemoryResource, Reachable t ∧
    t.areas = [(⟨0, 0x4000⟩, ⟨true⟩), (⟨0x4000, 0x10000⟩, ⟨false⟩)] ∧
    ∀ rest, ∃ r', deserialize unitCodec flagCodec ⟨(), empty⟩
        (serialize unitCodec flagCodec ⟨(), t⟩ ++ rest) = some (r', rest) ∧
      r'.base = () ∧ r'.allocations.areas = t.areas := by
  obtain ⟨t, ht, hareas⟩ : ∃ t, pagesAllocated 1 = some t ∧
      t.areas = [(⟨0, 0x4000⟩, ⟨true⟩), (⟨0x4000, 0x10000⟩, ⟨false⟩)] := exists_some_and (by decide)
  have hreach := reachable_pagesAllocated ht
  refine ⟨t, hreach, hareas, (roundTrips_iff_separated (r := ⟨(), t⟩) unitCodec flagCodec hreach
    (by rw [hareas]; decide) rfl).mpr ?_⟩
  intro k₁ k₂ k₃ d h₁ h₂
  have h₁ : ((⟨k₁, k₂⟩ : AddressRange), d) ∈ t.areas := hreach.wf.mem_areas.mpr h₁
  have h₂ : ((⟨k₂, k₃⟩ : AddressRange), d) ∈ t.areas := hreach.wf.mem_areas.mpr h₂
  rw [hareas] at h₁ h₂
  simp only [mem_cons, Prod.mk.injEq, AddressRange.mk.injEq, not_mem_nil, or_false] at h₁ h₂
  rcases h₁ with ⟨⟨-, rfl⟩, rfl⟩ | ⟨⟨-, rfl⟩, rfl⟩
  · rcases h₂ with ⟨⟨h, -⟩, -⟩ | ⟨-, h⟩ <;> cases h
  · rcases h₂ with ⟨⟨h, -⟩, -⟩ | ⟨⟨h, -⟩, -⟩ <;> cases h

/-- Two pages allocated: they come back as one area. -/
theorem touching_pages_fuse : ∃ t : FlexibleMemoryResource, Reachable t ∧
    t.areas = [(⟨0, 0x4000⟩, ⟨true⟩), (⟨0x4000, 0x8000⟩, ⟨true⟩), (⟨0x8000, 0x10000⟩, ⟨false⟩)] ∧
    (deserialize unitCodec flagCodec ⟨(), empty⟩ (serialize unitCodec flagCodec ⟨(), t⟩)).map
      (·.1.allocations.areas) = some [(⟨0, 0x8000⟩, ⟨true⟩), (⟨0x8000, 0x10000⟩, ⟨false⟩)] :=
  (exists_some_and (o := pagesAllocated 2) (by decide)).imp fun t h => ⟨reachable_pagesAllocated h.1, h.2⟩

end Flexible

end AllocableResource

end Rpcsx.Kernel
