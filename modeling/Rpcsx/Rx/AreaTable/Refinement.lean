import Mathlib.Data.Set.Card
import Mathlib.Order.Interval.Finset.Nat
import Rpcsx.Lib.Run
import Rpcsx.Rx.AreaTable.Map

/-!
# The table of areas refines a set of addresses

`map` is union with a range, `unmap` is difference, iteration lists the maximal intervals of the
set and `totalMemory` is its cardinality. The one thing that goes wrong is in `unmap`: when the
range reaches the first marker of the table from below or at it, the loop asks for the marker before
the first one (`unmap_eq_none`). `Op.Safe` is the exact condition under which it does not.
-/

namespace Rpcsx.Rx

open Lib List

namespace MemoryAreaTable

variable {H : Type} [InvalidationHandle H] {t : MemoryAreaTable H} {b e : Nat}

/-! ## What the operations do to the set -/

omit [InvalidationHandle H] in
/-- A range whose markers were replaced by ones that set it to `v`. -/
theorem WF.of_replaced {t' : MemoryAreaTable H} {L M R B E : List (Nat × Kind)}
    {nb ne : Option Kind} {s1 s2 s s3 v : Bool} (hbe : b < e)
    (hent : t.mAreas.entries = L ++ (slot b nb ++ (M ++ (slot e ne ++ R))))
    (hLb : KeysLt L b) (hMb : KeysGt M b) (hMe : KeysLt M e) (hRe : KeysGt R e)
    (hL : Alternates false L s1) (hb : Alternates s1 (slot b nb) s2) (hM : Alternates s2 M s)
    (he : Alternates s (slot e ne) s3) (hR : Alternates s3 R false)
    (hent' : t'.mAreas.entries = (L ++ B) ++ (E ++ R)) (hB : Alternates s1 B v)
    (hE : Alternates v E s3) (hBkey : ∀ x ∈ B, x.1 = b) (hEkey : ∀ x ∈ E, x.1 = e) :
    t'.WF ∧ (∀ a, t'.covers a = if b ≤ a ∧ a < e then v else t.covers a) ∧
      ∀ N, KeysLt t.mAreas.entries N → e < N → KeysLt t'.mAreas.entries N := by
  have hmid : ∀ x ∈ slot b nb ++ (M ++ slot e ne), b ≤ x.1 ∧ x.1 ≤ e := by
    intro x hx
    rcases mem_append.mp hx with hx | hx
    · rw [mem_slot hx]; exact ⟨le_refl b, hbe.le⟩
    rcases mem_append.mp hx with hx | hx
    · exact ⟨(hMb x hx).le, (hMe x hx).le⟩
    · rw [mem_slot hx]; exact ⟨hbe.le, le_refl e⟩
  let c : Splice t.mAreas t'.mAreas b e :=
    ⟨L, slot b nb ++ (M ++ slot e ne), R, B, E, by simp [hent], hent', hbe, hLb, hmid, hRe, hBkey, hEkey⟩
  refine ⟨?_, fun a => ?_, fun N hN heN => ?_⟩
  · rw [WF, hent']
    exact (hL.append hB).append (hE.append hR)
  swap
  · rw [hent] at hN
    obtain ⟨hNL, hN⟩ := keysLt_append.mp hN
    obtain ⟨-, hN⟩ := keysLt_append.mp hN
    obtain ⟨-, hN⟩ := keysLt_append.mp hN
    rw [hent']
    refine keysLt_append.mpr ⟨keysLt_append.mpr ⟨hNL, fun x hx => ?_⟩,
      keysLt_append.mpr ⟨fun x hx => ?_, (keysLt_append.mp hN).2⟩⟩
    · rw [hBkey x hx]; exact lt_trans hbe heN
    · rw [hEkey x hx]; exact heN
  by_cases hba : b ≤ a
  · by_cases hae : a < e
    · rw [if_pos ⟨hba, hae⟩, covers, c.readAt_inside hba hae]
      exact (hL.append hB).inForce_eq
    rw [if_neg (fun h => hae h.2), covers, covers]
    rcases c.readAt_right opensAt false (not_lt.mp hae) with ⟨hold, hnew⟩ | ⟨x, -, hold, hnew⟩
    · rw [hold, hnew]
      exact ((hL.append hB).append hE).inForce_eq.trans (hL.append (hb.append (hM.append he))).inForce_eq.symm
    rw [hold, hnew]
  rw [if_neg (fun h => hba h.1), covers, covers, c.readAt_left (not_le.mp hba)]

omit [InvalidationHandle H] in
theorem mem_beginMarker {s : Bool} {n : Kind} {x : Nat × Kind} (h : x ∈ beginMarker s b n) : x.1 = b := by
  unfold beginMarker at h
  split at h
  · cases h
  · rw [mem_singleton.mp h]

/-- **`map` is union with the range.** -/
theorem WF.map_spec (hwf : t.WF) (hbe : b < e) : ∃ t', t.map ⟨b, e⟩ = some t' ∧ t'.WF ∧
      (∀ a, t'.covers a = if b ≤ a ∧ a < e then true else t.covers a) ∧
      ∀ N, KeysLt t.mAreas.entries N → e < N → KeysLt t'.mAreas.entries N := by
  obtain ⟨L, nb, M, ne, R, s1, s2, s, s3, hent, hLb, hMb, hMe, hRe, hL, hb, hM, he, hR⟩ := hwf.exists_range_cut b e
  obtain ⟨t', hmap, hent'⟩ := map_eq hbe hent hLb hMb hMe hRe hL hb he hR
  refine ⟨t', hmap, WF.of_replaced hbe hent hLb hMb hMe hRe hL hb hM he hR hent' ?_ ?_
    (fun x hx => mem_beginMarker hx) (fun x hx => mem_beginMarker hx)⟩
  · cases s1
    · exact ⟨rfl, rfl⟩
    · rfl
  · cases s3
    · exact ⟨rfl, rfl⟩
    · rfl

/-- The first marker of the table is not in `[b, e)`. -/
def UnmapSafe (t : MemoryAreaTable H) (b e : Nat) : Prop :=
  ∀ k, t.mAreas.first = some k → k < b ∨ e ≤ k

/-- **`unmap` is difference with the range**, when it starts after the first marker or ends before
it. -/
theorem WF.unmap_spec (hwf : t.WF) (hbe : b < e) (hsafe : t.UnmapSafe b e) : ∃ t', t.unmap b e = some t' ∧ t'.WF ∧
      (∀ a, t'.covers a = if b ≤ a ∧ a < e then false else t.covers a) ∧
      ∀ N, KeysLt t.mAreas.entries N → e < N → KeysLt t'.mAreas.entries N := by
  obtain ⟨L, nb, M, ne, R, s1, s2, s, s3, hent, hLb, hMb, hMe, hRe, hL, hb, hM, he, hR⟩ := hwf.exists_range_cut b e
  obtain ⟨t', hunmap, hent'⟩ : ∃ t', t.unmap b e = some t' ∧
      t'.mAreas.entries = (L ++ beginMarker (!s1) b .x) ++ (beginMarker (!s3) e .o ++ R) := by
    cases hfirst : slot b nb ++ M with
    | nil =>
      obtain ⟨hnb, rfl⟩ := append_eq_nil_iff.mp hfirst
      rw [hnb] at hb hent
      cases hb
      cases hM
      exact unmap_eq_of_nil hbe hent hLb hRe hL he hR
    | cons x Q =>
      obtain ⟨k, n⟩ := x
      have hkn : (k, n) ∈ slot b nb ++ M := by rw [hfirst]; simp
      have hbk : b ≤ k ∧ k < e := by
        rcases mem_append.mp hkn with hkn | hkn
        · have hkb : k = b := mem_slot hkn
          rw [hkb]; exact ⟨le_refl b, hbe⟩
        exact ⟨(hMb _ hkn).le, hMe _ hkn⟩
      have hent1 : t.mAreas.entries = L ++ (k, n) :: ((Q ++ slot e ne) ++ R) := by
        rw [hent, ← append_assoc (slot b nb), hfirst]; simp
      rcases eq_nil_or_concat L with rfl | ⟨P, y, rfl⟩
      · -- the marker is the first of the table
        have hfirst' : t.mAreas.first = some k := by rw [OrdMap.first, hent1]; rfl
        rcases hsafe k hfirst' with h | h
        · exact absurd h (not_lt.mpr hbk.1)
        · exact absurd h (not_le.mpr hbk.2)
      rw [concat_eq_append] at hent1 hLb ⊢
      refine unmap_eq_of_before hent1 hLb hbk.1 hbk.2 (fun x hx => ?_) hRe ?_
      · rcases mem_append.mp hx with hx | hx
        · have hmem : x ∈ slot b nb ++ M := by rw [hfirst]; simp [hx]
          rcases mem_append.mp hmem with hmem | hmem
          · rw [mem_slot hmem]; exact hbe.le
          · exact (hMe x hmem).le
        exact (mem_slot hx).le
      rw [← cons_append, ← hfirst]
      exact (hb.append hM).append he
  refine ⟨t', hunmap, WF.of_replaced hbe hent hLb hMb hMe hRe hL hb hM he hR hent' ?_ ?_
    (fun x hx => mem_beginMarker hx) (fun x hx => mem_beginMarker hx)⟩
  · cases s1
    · rfl
    · exact ⟨rfl, rfl⟩
  · cases s3
    · rfl
    · exact ⟨rfl, rfl⟩

/-- Otherwise it dereferences the position before the first marker. -/
theorem WF.unmap_eq_none_of_not_safe (hwf : t.WF) (hsafe : ¬ t.UnmapSafe b e) : t.unmap b e = none := by
  simp only [UnmapSafe, not_forall, not_or, not_lt, not_le] at hsafe
  obtain ⟨k, hfirst, hbk, hke⟩ := hsafe
  rw [OrdMap.first] at hfirst
  cases hent : t.mAreas.entries with
  | nil => rw [hent] at hfirst; cases hfirst
  | cons x Q =>
    rw [hent] at hfirst
    cases hfirst
    exact unmap_eq_none (n := x.2) hwf hent hbk hke

/-! ## Iteration and `totalMemory` -/

/-- Induction over alternating markers, which come in pairs. -/
theorem Alternates.pairs {motive : (l : List (Nat × Kind)) → Alternates false l false → Prop} (nil : motive [] rfl)
    (cons : ∀ b e l (h : Alternates false l false), motive l h → motive ((b, .o) :: (e, .x) :: l) ⟨rfl, rfl, h⟩) :
    ∀ {l : List (Nat × Kind)} (h : Alternates false l false), motive l h
  | [], _ => nil
  | [_], h => by cases h.2
  | (b, n) :: (e, n') :: l, h => by
    have hn : n = .o := opens_eq_true.mp h.1
    have hn' : n' = .x := opens_eq_false.mp h.2.1
    subst hn hn'
    exact cons b e l h.2.2 (Alternates.pairs nil cons h.2.2)

def addresses : List AddressRange → Finset Nat
  | [] => ∅
  | r :: rs => Finset.Ico r.beginAddress r.endAddress ∪ addresses rs

theorem mem_addresses {rs : List AddressRange} {a : Nat} : a ∈ addresses rs ↔ ∃ r ∈ rs, a ∈ r := by
  induction rs with
  | nil => simp [addresses]
  | cons r rs ih => simp [addresses, ih, AddressRange.mem_def]

/-- The keys of a table, in the form in which the two ends of the first area are used. -/
theorem sorted_pair {n n' : Kind} {l : List (Nat × Kind)}
    (hs : ((b, n) :: (e, n') :: l).Pairwise (fun x y => x.1 < y.1)) :
    b < e ∧ KeysGt l e ∧ l.Pairwise (fun x y => x.1 < y.1) := by
  obtain ⟨hb, hs1⟩ := pairwise_cons.mp hs
  obtain ⟨he, hs2⟩ := pairwise_cons.mp hs1
  exact ⟨hb (e, n') mem_cons_self, he, hs2⟩

section Markers

variable {l : List (Nat × Kind)}

theorem lt_beginAddress (h : Alternates false l false) {a : Nat} (hl : KeysGt l a) :
    ∀ r ∈ areasOf l, a < r.beginAddress := by
  induction h using Alternates.pairs with
  | nil => intro r hr; cases hr
  | cons b e l hl' ih =>
    intro r hr
    rcases mem_cons.mp hr with rfl | hr
    · exact hl (b, .o) mem_cons_self
    · exact ih (fun x hx => hl x (by simp [hx])) r hr

section

variable (h : Alternates false l false) (hs : l.Pairwise (fun x y => x.1 < y.1))

include h hs

theorem areasOf_pairwise : (areasOf l).Pairwise (fun r r' => r.endAddress < r'.beginAddress) := by
  induction h using Alternates.pairs with
  | nil => exact List.Pairwise.nil
  | cons b e l hl ih =>
    obtain ⟨-, he, hs'⟩ := sorted_pair hs
    exact pairwise_cons.mpr ⟨lt_beginAddress hl he, ih hs'⟩

theorem areasOf_valid : ∀ r ∈ areasOf l, r.isValid := by
  induction h using Alternates.pairs with
  | nil => intro r hr; cases hr
  | cons b e l hl ih =>
    obtain ⟨hbe, -, hs'⟩ := sorted_pair hs
    intro r hr
    rcases mem_cons.mp hr with rfl | hr
    · exact AddressRange.isValid_iff.mpr hbe
    · exact ih hs' r hr

/-- An address is in a listed area iff the last marker up to it is an `O`. -/
theorem inForce_filter_iff (a : Nat) : inForce opensAt false (l.filter fun x => x.1 ≤ a) ↔ ∃ r ∈ areasOf l, a ∈ r := by
  induction h using Alternates.pairs with
  | nil => simp [areasOf]
  | cons b e l hl ih =>
    obtain ⟨hbe, he, hs'⟩ := sorted_pair hs
    have hlater : (∃ r ∈ areasOf l, a ∈ r) → e < a := by
      rintro ⟨r, hr, ha⟩
      exact lt_of_lt_of_le (lt_beginAddress hl he r hr) (AddressRange.mem_def.mp ha).1
    have hsplit : (∃ r ∈ areasOf ((b, .o) :: (e, .x) :: l), a ∈ r) ↔ (b ≤ a ∧ a < e) ∨ ∃ r ∈ areasOf l, a ∈ r := by
      simp [areasOf, AddressRange.mem_def]
    have hrest : a < e → l.filter (fun x => x.1 ≤ a) = [] := fun hae =>
      filter_eq_nil_iff.mpr fun x hx => by simpa using lt_trans hae (he x hx)
    rw [hsplit]
    by_cases hab : a < b
    · -- before the first area
      have hae := lt_trans hab hbe
      rw [filter_cons_of_neg (by simpa using hab), filter_cons_of_neg (by simpa using hae), hrest hae]
      refine ⟨(fun hf => by cases hf), ?_⟩
      rintro (h | h)
      · exact absurd h.1 (not_le.mpr hab)
      · exact absurd (hlater h) (not_lt.mpr hae.le)
    rw [filter_cons_of_pos (by simpa using hab)]
    by_cases hae : a < e
    · -- in it
      rw [filter_cons_of_neg (by simpa using hae), hrest hae]
      exact ⟨fun _ => Or.inl ⟨not_lt.mp hab, hae⟩, fun _ => rfl⟩
    -- after it
    rw [filter_cons_of_pos (by simpa using hae)]
    exact (ih hs').trans ⟨Or.inr, fun h => h.resolve_left (fun h => hae h.2)⟩

end

/-- The loop of `totalMemory` adds up the sizes, and never leaves 64 bits: what has been counted
lies below the next marker. -/
theorem totalOf_eq (h : Alternates false l false) (hs : l.Pairwise (fun x y => x.1 < y.1))
    (h64 : KeysLt l (2 ^ 64)) {acc : Nat} (hacc : ∀ x ∈ l, acc ≤ x.1) :
    totalOf l acc = some (acc + (addresses (areasOf l)).card) := by
  induction h using Alternates.pairs generalizing acc with
  | nil => simp [totalOf, areasOf, addresses]
  | cons b e l hl ih =>
    obtain ⟨hbe, he, hs'⟩ := sorted_pair hs
    have he64 : e < 2 ^ 64 := h64 (e, .x) (by simp)
    have hab : acc ≤ b := hacc (b, .o) (by simp)
    have hsum : u64 (acc + u64Sub e b) = acc + (e - b) := by
      rw [u64Sub_of_le hbe.le]
      exact u64_of_lt (lt_of_le_of_lt (by omega) he64)
    have hdisj : Disjoint (Finset.Ico b e) (addresses (areasOf l)) := by
      refine Finset.disjoint_left.mpr fun a ha ha' => ?_
      obtain ⟨r, hr, har⟩ := mem_addresses.mp ha'
      have h1 := lt_beginAddress hl he r hr
      have h2 := (AddressRange.mem_def.mp har).1
      have h3 := (Finset.mem_Ico.mp ha).2
      omega
    have hacc' : ∀ x ∈ l, acc + (e - b) ≤ x.1 := by
      intro x hx
      have hx' : e < x.1 := he x hx
      omega
    rw [totalOf, hsum, ih hs' (fun x hx => h64 x (by simp [hx])) hacc', areasOf, addresses,
      Finset.card_union_of_disjoint hdisj, Nat.card_Ico, Nat.add_assoc]

end Markers

/-! ## Runs -/

inductive Op where
  | map (range : AddressRange)
  | unmap (beginAddress endAddress : Nat)

structure Traced (H : Type) where
  table : MemoryAreaTable H
  set : Set Nat

def Op.Legal : Op → Prop
  | .map range => range.isValid = true ∧ range.endAddress < 0x10000000000000000
  | .unmap b e => b < e ∧ e < 0x10000000000000000

/-- `unmap` does not reach the first marker of the table from below. -/
def Op.Safe (s : Traced H) : Op → Prop
  | .map _ => True
  | .unmap b e => s.table.UnmapSafe b e

def Op.step (s : Traced H) : Op → Option (Traced H)
  | .map range => (s.table.map range).map fun t => ⟨t, s.set ∪ {a | a ∈ range}⟩
  | .unmap b e => (s.table.unmap b e).map fun t => ⟨t, s.set \ {a | b ≤ a ∧ a < e}⟩

/-- The simulation; the set is bounded by the address space, which `totalMemory` needs. -/
structure Simulates (s : Traced H) : Prop where
  wf : s.table.WF
  mem_iff : ∀ a, s.table.covers a = true ↔ a ∈ s.set
  bounded : KeysLt s.table.mAreas.entries 0x10000000000000000

omit [InvalidationHandle H] in
theorem simulates_empty (h : H) : Simulates ⟨empty h, ∅⟩ :=
  ⟨rfl, fun _ => by simp [covers, empty, OrdMap.readAt, OrdMap.empty], by
    intro x hx; cases hx⟩

variable {s : Traced H}

/-- Every legal and safe call succeeds and keeps the simulation. -/
theorem step_simulates (h : Simulates s) {op : Op} (hop : op.Legal) (hsafe : op.Safe s) :
    ∃ s', op.step s = some s' ∧ Simulates s' := by
  cases op with
  | map range =>
    obtain ⟨b, e⟩ := range
    obtain ⟨hvalid, he⟩ := hop
    have hbe : b < e := AddressRange.isValid_iff.mp hvalid
    obtain ⟨t', hmap, hwf', hcov, hkeys⟩ := h.wf.map_spec hbe
    refine ⟨⟨t', s.set ∪ {a | a ∈ AddressRange.mk b e}⟩, by simp [Op.step, hmap], hwf',
      fun a => ?_, hkeys _ h.bounded he⟩
    rw [hcov, Set.mem_union, ← h.mem_iff, Set.mem_ofPred_eq, AddressRange.mem_def]
    split <;> simp_all
  | unmap b e =>
    obtain ⟨hbe, he⟩ := hop
    obtain ⟨t', hunmap, hwf', hcov, hkeys⟩ := h.wf.unmap_spec hbe hsafe
    refine ⟨⟨t', s.set \ {a | b ≤ a ∧ a < e}⟩, by simp [Op.step, hunmap], hwf', fun a => ?_, hkeys _ h.bounded he⟩
    rw [hcov, Set.mem_sdiff, ← h.mem_iff, Set.mem_ofPred_eq]
    split <;> simp_all

/-- A legal call that is not safe fails. -/
theorem step_eq_none_of_not_safe (h : Simulates s) {op : Op} (hsafe : ¬ op.Safe s) : op.step s = none := by
  cases op with
  | map range => exact absurd trivial hsafe
  | unmap b e =>
    have hnone : s.table.unmap b e = none := h.wf.unmap_eq_none_of_not_safe hsafe
    simp only [Op.step, hnone, Option.map_none]

theorem run_simulates {h0 : H} {ops : List Op}
    (h : Run (fun s op => Op.step s op) (fun s op => op.Legal ∧ op.Safe s) ⟨empty h0, ∅⟩ ops s) : Simulates s := by
  refine h.invariant (simulates_empty h0) fun s op s' hs hop hstep => ?_
  obtain ⟨s'', hstep', hs''⟩ := step_simulates hs hop.1 hop.2
  rw [hstep] at hstep'
  cases hstep'
  exact hs''

/-- **The table refines a set of addresses**, as long as no `unmap` reaches the first marker from
below: in every state reached the markers alternate, the listed areas are valid, increasing and
do not touch, they hold exactly the addresses of the set, `totalMemory` is its cardinality, and a
further legal call stays inside the map exactly when it is safe. -/
theorem run_refines_set {h₀ : H} {ops : List Op} {s : Traced H}
    (h : Run (fun s op => Op.step s op) (fun s op => op.Legal ∧ op.Safe s) ⟨empty h₀, ∅⟩ ops s) : s.table.WF ∧
    (∀ r ∈ s.table.areas, r.isValid = true) ∧ s.table.areas.Pairwise (fun r r' => r.endAddress < r'.beginAddress) ∧
    (∀ a, (∃ r ∈ s.table.areas, a ∈ r) ↔ a ∈ s.set) ∧ s.table.totalMemory = some s.set.ncard ∧
    (∀ op : Op, op.Legal → ((op.step s).isSome = true ↔ op.Safe s)) := by
  have hs := run_simulates h
  have hsorted := s.table.mAreas.sorted
  have hmem : ∀ a, (∃ r ∈ s.table.areas, a ∈ r) ↔ a ∈ s.set := fun a =>
    (inForce_filter_iff hs.wf hsorted a).symm.trans (hs.mem_iff a)
  refine ⟨hs.wf, areasOf_valid hs.wf hsorted, areasOf_pairwise hs.wf hsorted, hmem, ?_,
    fun op hop => ⟨fun hsome => ?_, fun hsafe => ?_⟩⟩
  · have hset : s.set = ↑(addresses s.table.areas) := by
      ext a
      rw [Finset.mem_coe, mem_addresses, hmem]
    rw [totalMemory, totalOf_eq hs.wf hsorted hs.bounded (by simp), Nat.zero_add, hset, Set.ncard_coe_finset]
    rfl
  · by_contra hsafe
    rw [step_eq_none_of_not_safe hs hsafe] at hsome
    cases hsome
  obtain ⟨s', hstep, -⟩ := step_simulates hs hop hsafe
  rw [hstep]; rfl

/-- Three areas, one of them cut by an `unmap` that starts above the first marker. -/
theorem run_refines_set_three : ∃ s : Traced NoInvalidationHandle,
    Run (fun s op => Op.step s op) (fun s op => op.Legal ∧ op.Safe s) ⟨empty ⟨⟩, ∅⟩
      [.map ⟨0, 8⟩, .map ⟨16, 32⟩, .map ⟨40, 48⟩, .unmap 20 24] s ∧
    s.table.areas = [⟨0, 8⟩, ⟨16, 20⟩, ⟨24, 32⟩, ⟨40, 48⟩] ∧ s.table.totalMemory = some s.set.ncard := by
  refine Run.exists_and (.cons ⟨by simp [Op.Legal], trivial⟩ rfl (.cons ⟨by simp [Op.Legal], trivial⟩ rfl
    (.cons ⟨by simp [Op.Legal], trivial⟩ rfl (.cons ⟨by simp [Op.Legal], ?_⟩ rfl (.nil _))))) (by decide)
    fun h => (run_refines_set h).2.2.2.2.1
  intro k hk
  left
  cases hk
  decide

/-- After `map [10, 20)` the call `unmap(0, 30)` dereferences the position before the first
marker. -/
theorem unmap_before_first : ∃ s : Traced NoInvalidationHandle,
    Run (fun s op => Op.step s op) (fun _ op => op.Legal) ⟨empty ⟨⟩, ∅⟩ [.map ⟨10, 20⟩] s ∧
    (Op.unmap 0 30).Legal ∧ (Op.unmap 0 30).step s = none :=
  ⟨_, .cons (by simp [Op.Legal]) rfl (.nil _), by simp [Op.Legal], rfl⟩

/-! ## The listing of a set -/

/-- Valid areas in order, with addresses between them. -/
structure Apart (l : List AddressRange) : Prop where
  valid : ∀ r ∈ l, r.isValid = true
  pairwise : l.Pairwise fun r r' => r.endAddress < r'.beginAddress

namespace Apart

variable {l l' : List AddressRange} {r : AddressRange} (h : Apart l)

include h

theorem lt (hr : r ∈ l) : r.beginAddress < r.endAddress := AddressRange.isValid_iff.mp (h.valid r hr)

/-- The end of an area is in no area, and neither is the address below its beginning. -/
theorem edges (hr : r ∈ l) {a : Nat} (ha : a = r.endAddress ∨ a + 1 = r.beginAddress) : ¬ ∃ x ∈ l, a ∈ x := by
  rintro ⟨x, hx, hbegin, hend⟩
  have hlt := h.lt hr
  obtain ⟨L, R, rfl⟩ := append_of_mem hr
  have hpairwise := h.pairwise
  rw [pairwise_append, pairwise_cons] at hpairwise
  grind

/-- Areas that cover the same addresses are the same: no edge of `r` is inside `x`, and no edge of `x` inside `r`. -/
theorem subset (h' : Apart l') (heq : ∀ a, (∃ x ∈ l, a ∈ x) ↔ ∃ x ∈ l', a ∈ x) : l ⊆ l' := by
  intro r hr
  have hlt := h.lt hr
  obtain ⟨x, hx, hbegin, hend⟩ := (heq r.beginAddress).mp ⟨r, hr, le_rfl, hlt⟩
  have hle : r.beginAddress ≤ x.beginAddress := by
    by_contra hgt
    exact h.edges hr (.inr (by omega)) ((heq (r.beginAddress - 1)).mpr ⟨x, hx, by omega, by omega⟩)
  have hge : x.endAddress ≤ r.endAddress := by
    by_contra hgt
    exact h.edges hr (.inl rfl) ((heq _).mpr ⟨x, hx, by omega, not_le.mp hgt⟩)
  have hge' : r.endAddress ≤ x.endAddress := by
    by_contra hgt
    exact h'.edges hx (.inl rfl) ((heq _).mp ⟨r, hr, hend.le, not_le.mp hgt⟩)
  obtain rfl : r = x := by
    cases r
    cases x
    simp_all [le_antisymm_iff]
  exact hx

/-- A listing is determined by its addresses. -/
theorem ext (h' : Apart l') (heq : ∀ a, (∃ x ∈ l, a ∈ x) ↔ ∃ x ∈ l', a ∈ x) : l = l' := by
  have hirr : Std.Irrefl fun r r' : AddressRange => r.beginAddress < r'.beginAddress := ⟨fun _ => lt_irrefl _⟩
  have hanti : Std.Antisymm fun r r' : AddressRange => r.beginAddress < r'.beginAddress :=
    ⟨fun _ _ hlt hgt => absurd hlt hgt.not_gt⟩
  have hbegin {l} (h : Apart l) := h.pairwise.imp_of_mem fun hr _ hlt => (h.lt hr).trans hlt
  exact Subset.antisymm_of_pairwise (hbegin h) (hbegin h') (h.subset h' heq) (h'.subset h fun a => (heq a).symm)

end Apart

variable {s' : Traced H}

omit [InvalidationHandle H] in
theorem Simulates.apart (hs : Simulates s) : Apart s.table.areas ∧ ∀ a, (∃ r ∈ s.table.areas, a ∈ r) ↔ a ∈ s.set :=
  have hsorted := s.table.mAreas.sorted
  ⟨⟨areasOf_valid hs.wf hsorted, areasOf_pairwise hs.wf hsorted⟩, fun a =>
    (inForce_filter_iff hs.wf hsorted a).symm.trans (hs.mem_iff a)⟩

/-- **What the table lists depends on the set of addresses only**, and not on the calls that led to it. -/
theorem areas_eq_iff_set_eq {h0 h0' : H} {ops ops' : List Op}
    (h : Run (fun s op => Op.step s op) (fun s op => op.Legal ∧ op.Safe s) ⟨empty h0, ∅⟩ ops s)
    (h' : Run (fun s op => Op.step s op) (fun s op => op.Legal ∧ op.Safe s) ⟨empty h0', ∅⟩ ops' s') :
    s.table.areas = s'.table.areas ↔ s.set = s'.set := by
  obtain ⟨hap, hmem⟩ := (run_simulates h).apart
  obtain ⟨hap', hmem'⟩ := (run_simulates h').apart
  refine ⟨fun heq => Set.ext fun a => ?_, fun heq => hap.ext hap' fun a => ?_⟩
  · rw [← hmem, ← hmem', heq]
  · rw [hmem, hmem', heq]

/-- An area in two pieces that touch. -/
theorem areas_eq_iff_set_eq_halves : ∃ s s' : Traced NoInvalidationHandle, s.set = s'.set ∧
    Run (fun s op => Op.step s op) (fun s op => op.Legal ∧ op.Safe s) ⟨empty ⟨⟩, ∅⟩ [.map ⟨0, 4⟩, .map ⟨4, 8⟩] s ∧
    Run (fun s op => Op.step s op) (fun s op => op.Legal ∧ op.Safe s) ⟨empty ⟨⟩, ∅⟩ [.map ⟨0, 8⟩] s' :=
  have h := Run.cons ⟨by simp [Op.Legal], trivial⟩ rfl (.cons ⟨by simp [Op.Legal], trivial⟩ rfl (.nil _))
  have h' := Run.cons ⟨by simp [Op.Legal], trivial⟩ rfl (.nil _)
  ⟨_, _, (areas_eq_iff_set_eq h h').mp (by decide), h, h'⟩

end MemoryAreaTable

end Rpcsx.Rx
