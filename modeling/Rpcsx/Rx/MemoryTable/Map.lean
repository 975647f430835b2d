import Rpcsx.Rx.MemoryTable.Bracket

/-!
# What `map` and `unmap` do to a well-formed table

The source rebuilds the markers of a range in place: it inserts the two ends, walks over the
markers in between and repairs the kinds of both ends from flags it collects on the way. On a
well-formed table all of this comes to one closed form (`mapMarkers_eq`): the markers below and
above the range stay, the begin becomes `O` or `XO` by whether an area is in force before it, and
the end becomes `X` or `XO` by what was in force there. The merge step then drops the ends that
separate equal payloads (`map_eq`).

The flags are only meaningful together, which is what `BeginOk` states: the invariant of the
removal loop.
-/

namespace Rpcsx.Rx

open Lib OrdMap List Option

namespace MemoryTableWithPayload

variable {T : Type}

/-- The marker that opens the payload `p`, inside an area or not. -/
def openMarker (inside : Bool) (p : T) : Payload T := if inside then .xo p else .o p

/-- The marker that ends the range where the payload `v` is in force after it. -/
def closeMarker : Option T → Payload T
  | none => .x
  | some d => .xo d

@[simp] theorem get?_openMarker (s : Bool) (p : T) : (openMarker s p).get? = some p := by
  cases s <;> rfl

variable {L R : List (Nat × Payload T)} {n : Payload T} {p : T}

theorem setCloseOpenAt_eq {m : OrdMap Nat (Payload T)} {k : Nat} (h : m.entries = L ++ (k, n) :: R)
    (hn : n.get? = some p) : setCloseOpenAt m k = some (m.insert k (.xo p)) := by
  have hset : n.setCloseOpen = some (.xo p) := by
    cases n <;> simp_all [Payload.get?, Payload.setCloseOpen]
  simp [setCloseOpenAt, find?_of_mem h, hset]

/-! ## The removal loop -/

/-- How the begin marker `n0` and the flag `seenOpen` relate during the loop, for a range whose
begin lies inside an area iff `s1`, at a point that is inside one (of the old areas) iff `s`:
either the marker is right already, or nothing but its insertion has happened. -/
def BeginOk (s1 s seenOpen : Bool) (n0 : Payload T) (p : T) : Prop :=
  (seenOpen = true ∧ n0 = openMarker s1 p) ∨
  (seenOpen = false ∧ s = false ∧ n0 = openMarker s1 p) ∨
  (seenOpen = false ∧ s = s1 ∧ n0 = .o p)

variable {s1 s : Bool} {n0 : Payload T}

theorem BeginOk.get? {seenOpen : Bool} (h : BeginOk s1 s seenOpen n0 p) : n0.get? = some p := by
  rcases h with ⟨-, rfl⟩ | ⟨-, -, rfl⟩ | ⟨-, -, rfl⟩
  · simp
  · simp
  · rfl

variable {b : Nat} {st : MapState T}

/-- One marker of the middle: afterwards the begin marker is right, the point is inside an area
iff the marker opens one, and the flags say so. -/
theorem seeMarker_eq (hent : st.areas.entries = L ++ (b, n0) :: R) (hn : n.isOpen = !s)
    (hok : BeginOk s1 s st.seenOpen n0 p) : ∃ st', st.seeMarker b n = some st' ∧
      st'.areas.entries = L ++ (b, openMarker s1 p) :: R ∧
      st'.endCollision = st.endCollision ∧ st'.lastRemovedIsOpen = !n.isClose ∧
      (n.isClose = false → st'.seenOpen ∧ n.get? = some st'.lastRemovedOpenPayload) ∧
      BeginOk s1 (!n.isClose) st'.seenOpen (openMarker s1 p) p := by
  have hset := setCloseOpenAt_eq hent hok.get?
  obtain rfl : s = !n.isOpen := by simp [hn]
  cases n with
  | o d =>
    -- outside every old area, so the begin marker needs no repair
    have hright : n0 = openMarker s1 p := by
      rcases hok with ⟨-, h⟩ | ⟨-, -, h⟩ | ⟨-, h1, h⟩
      · exact h
      · exact h
      · rw [h, ← h1]; rfl
    exact ⟨_, rfl, hright ▸ hent, rfl, rfl, fun _ => ⟨rfl, rfl⟩, Or.inl ⟨rfl, rfl⟩⟩
  | x =>
    rcases hok with ⟨hseen, rfl⟩ | ⟨-, h, -⟩ | ⟨hseen, rfl, rfl⟩
    · rw [MapState.seeMarker, if_pos hseen]
      exact ⟨_, rfl, hent, rfl, rfl, (fun h => by cases h), Or.inl ⟨hseen, rfl⟩⟩
    · cases h
    rw [MapState.seeMarker, if_neg (by simp [hseen]), hset]
    exact ⟨_, rfl, entries_insert_of_mem hent, rfl, rfl, (fun h => by cases h), Or.inr (Or.inl ⟨hseen, rfl, rfl⟩)⟩
  | xo d =>
    rcases hok with ⟨hseen, rfl⟩ | ⟨-, h, -⟩ | ⟨hseen, rfl, rfl⟩
    · rw [MapState.seeMarker, if_pos hseen]
      exact ⟨_, rfl, hent, rfl, rfl, fun _ => ⟨hseen, rfl⟩, Or.inl ⟨hseen, rfl⟩⟩
    · cases h
    rw [MapState.seeMarker, if_neg (by simp [hseen]), hset]
    exact ⟨_, rfl, entries_insert_of_mem hent, rfl, rfl, fun _ => ⟨rfl, rfl⟩, Or.inl ⟨rfl, rfl⟩⟩

variable {e : Nat} {t : MemoryTableWithPayload T}

/-- The loop: it removes the markers `M` between the ends. When there were any, the begin marker
is right afterwards and the flags describe the last one removed. -/
theorem removeMiddle_eq {s2 : Bool} {ne : Payload T} {M : List (Nat × Payload T)}
    (hent : st.areas.entries = L ++ (b, n0) :: (M ++ (e, ne) :: R)) (hM : Brackets s M s2)
    (hok : BeginOk s1 s st.seenOpen n0 p) : ∃ st' n0', MapState.removeMiddle b e (M ++ (e, ne) :: R) st = some st' ∧
      st'.areas.entries = L ++ (b, n0') :: (e, ne) :: R ∧
      st'.endCollision = st.endCollision ∧ BeginOk s1 s2 st'.seenOpen n0' p ∧ (M = [] → st' = st) ∧
      (M ≠ [] → n0' = openMarker s1 p ∧ st'.lastRemovedIsOpen = s2 ∧ (s2 → st'.seenOpen ∧
          ∀ cur, (inForce openArea cur M).map Prod.snd = some st'.lastRemovedOpenPayload)) := by
  induction M generalizing s n0 st with
  | nil =>
    cases hM
    exact ⟨st, n0, by simp [MapState.removeMiddle], hent, rfl, hok, fun _ => rfl, fun h => absurd rfl h⟩
  | cons x M ih =>
    obtain ⟨k, n⟩ := x
    obtain ⟨hn, hM'⟩ := hM
    obtain ⟨st1, hsee, hent1, hec, hlast, hopen, hok1⟩ := seeMarker_eq hent hn hok
    have hke : k ≠ e := by
      have hs := st.areas.sorted
      rw [hent, pairwise_append, pairwise_cons] at hs
      have hs' := hs.2.1.2
      rw [cons_append, pairwise_cons] at hs'
      exact (hs'.1 (e, ne) (by simp)).ne
    have hent1' : st1.areas.entries = (L ++ [(b, openMarker s1 p)]) ++ (k, n) :: (M ++ (e, ne) :: R) := by simp [hent1]
    have hent2 : (st1.areas.erase k).entries = L ++ (b, openMarker s1 p) :: (M ++ (e, ne) :: R) := by
      rw [entries_erase_of_mem hent1']; simp
    obtain ⟨st', n0', hrec, hent', hec', hok', hnil, hcons⟩ :=
      @ih _ _ { st1 with areas := st1.areas.erase k } hent2 hM' hok1
    refine ⟨st', n0', ?_, hent', hec'.trans hec, hok', (fun h => by cases h), fun _ => ?_⟩
    · rw [cons_append, MapState.removeMiddle, if_neg hke, hsee]
      exact hrec
    by_cases hMnil : M = []
    · -- the marker just seen is the last one
      subst hMnil
      have hs2 : (!n.isClose) = s2 := hM'
      have hst' := hnil rfl
      subst hst'
      refine ⟨?_, by rw [← hs2]; exact hlast, fun h => ?_⟩
      · have : (b, n0') = (b, openMarker s1 p) := by
          have hinj := hent'.symm.trans hent2
          simpa using hinj
        exact (Prod.mk.inj this).2
      rw [← hs2] at h
      obtain ⟨h1, h2⟩ := hopen (by simpa using h)
      exact ⟨h1, fun cur => by simp [inForce, openArea, h2]⟩
    obtain ⟨h1, h2, h3⟩ := hcons hMnil
    refine ⟨h1, h2, fun h => ?_⟩
    obtain ⟨h4, h5⟩ := h3 h
    exact ⟨h4, fun cur => h5 _⟩

/-! ## Emplacing and adjusting the ends -/

def endMarker : Option (Payload T) → Payload T
  | none => .x
  | some (.o d) => .xo d
  | some n => n

def endCollides : Option (Payload T) → Bool
  | none => false
  | some (.o _) => false
  | some _ => true

/-- The branch for a begin marker that was there already. -/
theorem enterBegin_eq (hent : st.areas.entries = L ++ (b, n) :: R) (hn : n.isOpen = !s1) (hseen : st.seenOpen = false)
    (hlast : st.lastRemovedIsOpen = false) : ∃ st', st.enterBegin b p = some st' ∧
      st'.areas.entries = L ++ (b, openMarker s1 p) :: R ∧ st'.endCollision = st.endCollision ∧
      BeginOk s1 (!n.isClose) st'.seenOpen (openMarker s1 p) p ∧ st'.lastRemovedIsOpen = !n.isClose ∧
      (n.isClose = false → n.get? = some st'.lastRemovedOpenPayload) := by
  obtain rfl : s1 = !n.isOpen := by simp [hn]
  simp only [MapState.enterBegin, find?_of_mem hent]
  cases n with
  | o d => exact ⟨_, rfl, entries_insert_of_mem hent, rfl, Or.inl ⟨rfl, rfl⟩, rfl, fun _ => rfl⟩
  | x =>
    exact ⟨_, rfl, entries_insert_of_mem hent, rfl, Or.inr (Or.inl ⟨hseen, rfl, rfl⟩), hlast, fun h => by cases h⟩
  | xo d => exact ⟨_, rfl, entries_insert_of_mem hent, rfl, Or.inl ⟨rfl, rfl⟩, rfl, fun _ => rfl⟩

/-- The branch for an end marker that was there already. -/
theorem enterEnd_eq (hent : st.areas.entries = L ++ (e, n) :: R) (hec : st.endCollision = false) :
    ∃ st', st.enterEnd e = some st' ∧ st'.areas.entries = L ++ (e, endMarker (some n)) :: R ∧
      st'.endCollision = endCollides (some n) ∧ st'.seenOpen = st.seenOpen ∧ st'.lastRemovedIsOpen = false := by
  simp only [MapState.enterEnd, find?_of_mem hent]
  cases n with
  | o d => exact ⟨_, rfl, entries_insert_of_mem hent, hec, rfl, rfl⟩
  | x | xo d => exact ⟨_, rfl, hent, rfl, rfl, rfl⟩

/-- The branch for two fresh markers. -/
theorem enterInside_eq (hent : st.areas.entries = L ++ (b, .o p) :: R) (hL : Brackets false L s1)
    (hseen : st.seenOpen = false) (hlast : st.lastRemovedIsOpen = false) : ∃ st', st.enterInside b = some st' ∧
      st'.areas.entries = L ++ (b, openMarker s1 p) :: R ∧
      st'.endCollision = st.endCollision ∧ BeginOk s1 s1 st'.seenOpen (openMarker s1 p) p ∧
      st'.lastRemovedIsOpen = s1 ∧
      (s1 → (inForce openArea none L).map Prod.snd = some st'.lastRemovedOpenPayload) := by
  rcases eq_nil_or_concat L with rfl | ⟨L', ⟨k, n⟩, rfl⟩
  · -- `begin` is the first marker of the table
    obtain rfl : s1 = false := hL.symm
    have hfirst : st.areas.first = some b := by simp [first, hent]
    exact ⟨st, by simp [MapState.enterInside, hfirst], hent, rfl,
      Or.inr (Or.inl ⟨hseen, rfl, rfl⟩), hlast, fun h => by cases h⟩
  rw [concat_eq_append] at hent hL ⊢
  have hkb : k < b := keysLt_of_mem hent (k, n) (by simp)
  have hent' : st.areas.entries = L' ++ (k, n) :: ((b, .o p) :: R) := by simp [hent]
  have hfirst : st.areas.first ≠ some b := by
    rw [first, hent']
    cases L' with
    | nil => simpa using hkb.ne
    | cons x L'' =>
      have hx : x.1 < k := keysLt_of_mem hent' x (by simp)
      simpa using (lt_trans hx hkb).ne
  have hprev : (st.areas.prev b).bind st.areas.find? = some n := by
    rw [prev_of_mem hent]
    simp [find?_of_mem hent']
  obtain ⟨s, -, h2⟩ := hL.exists_of_append
  have hs1 : (!n.isClose) = s1 := h2.2
  rw [inForce_append]
  cases hget : n.get? with
  | none =>
    obtain rfl : s1 = false := by rw [← hs1, ← get?_isSome, hget]; rfl
    exact ⟨st, by simp only [MapState.enterInside, if_neg hfirst, hprev, hget], hent, rfl,
      Or.inr (Or.inl ⟨hseen, rfl, rfl⟩), hlast, fun h => by cases h⟩
  | some d =>
    obtain rfl : s1 := by rw [← hs1, ← get?_isSome, hget]; rfl
    simp only [MapState.enterInside, if_neg hfirst, hprev, hget, setCloseOpenAt_eq hent (p := p) rfl]
    exact ⟨_, rfl, entries_insert_of_mem hent, rfl, Or.inl ⟨rfl, rfl⟩, rfl, fun _ => by simp [inForce, openArea, hget]⟩

/-! ## The closed form of `map` -/

section ClosedForm

variable [Inhabited T] {t : MemoryTableWithPayload T} {b e : Nat} {p : T}
  {L M R : List (Nat × Payload T)} {nb ne : Option (Payload T)} {s1 s s2 s3 : Bool}

section

variable (hbe : b < e) (hent : t.mAreas.entries = L ++ (slot b nb ++ (M ++ (slot e ne ++ R)))) (hLb : KeysLt L b)
  (hMb : KeysGt M b) (hMe : KeysLt M e) (hRe : KeysGt R e) (hL : Brackets false L s1) (hb : Brackets s1 (slot b nb) s)

include hbe hent hLb hMb hMe hRe hL hb

/-- The state in which the loop starts. -/
theorem mapEnter_eq : ∃ st n0, t.mapEnter ⟨b, e⟩ p = some st ∧
      st.areas.entries = L ++ (b, n0) :: (M ++ (e, endMarker ne) :: R) ∧
      st.endCollision = endCollides ne ∧ BeginOk s1 s st.seenOpen n0 p ∧
      (ne = none → n0 = openMarker s1 p ∧ st.lastRemovedIsOpen = s ∧
        (s → (inForce openArea none (L ++ slot b nb)).map Prod.snd = some st.lastRemovedOpenPayload)) ∧
      (ne ≠ none → st.lastRemovedIsOpen = false) := by
  obtain ⟨m1, m2, h1, h2, hent2⟩ := emplace_both (.o p) .x hbe hent hLb hMb hMe hRe
  have hmid : ∀ n0, L ++ (b, n0) :: (M ++ (e, ne.getD .x) :: R) =
      (L ++ (b, n0) :: M) ++ (e, ne.getD .x) :: R := by intro n0; simp
  -- the state before the branches
  let st0 : MapState T := ⟨m2, false, false, false, default⟩
  have hent0 : st0.areas.entries = L ++ (b, nb.getD (.o p)) :: (M ++ (e, ne.getD .x) :: R) := hent2
  cases nb with
  | none =>
    obtain rfl : s1 = s := hb
    cases ne with
    | none =>
      obtain ⟨st, hst, hent', hec, hok, hlast, hpay⟩ := enterInside_eq hent0 hL rfl rfl
      refine ⟨st, _, ?_, hent', hec, hok, fun _ => ⟨rfl, hlast, ?_⟩, fun h => absurd rfl h⟩
      · simpa [mapEnter, h1, h2] using hst
      · simpa [slot] using hpay
    | some n =>
      rw [hmid] at hent0
      obtain ⟨st, hst, hent', hec, hseen, hlast⟩ := enterEnd_eq hent0 rfl
      refine ⟨st, .o p, ?_, by simpa using hent', hec, ?_, (fun h => by cases h), fun _ => hlast⟩
      · simpa [mapEnter, h1, h2] using hst
      · exact Or.inr (Or.inr ⟨hseen, rfl, rfl⟩)
  | some n =>
    obtain ⟨hn, hs⟩ : n.isOpen = (!s1) ∧ (!n.isClose) = s := hb
    rw [getD_some] at hent0
    obtain ⟨st, hst, hent1, hec, hok, hlast, hpay⟩ := enterBegin_eq (p := p) hent0 hn rfl rfl
    rw [hs] at hok hlast
    cases ne with
    | none =>
      refine ⟨st, _, ?_, hent1, hec, hok, fun _ => ⟨rfl, hlast, fun h => ?_⟩, fun h => absurd rfl h⟩
      · simpa [mapEnter, h1, h2] using hst
      rw [← hs] at h
      rw [slot, inForce_append_cons, inForce_nil, openArea, hpay (by simpa using h)]
      rfl
    | some n' =>
      rw [hmid] at hent1
      obtain ⟨st', hst', hent', hec', hseen, hlast'⟩ := enterEnd_eq hent1 (hec.trans rfl)
      refine ⟨st', _, ?_, by simpa using hent', hec', ?_, (fun h => by cases h), fun _ => hlast'⟩
      · have : (st0.enterBegin b p).bind (fun st => st.enterEnd e) = some st' := by rw [hst]; exact hst'
        simpa [mapEnter, h1, h2] using this
      rw [hseen]; exact hok

/-- **The closed form before merging**: only the two ends of the range remain of its markers. -/
theorem mapMarkers_eq (hM : Brackets s M s2) (he : Brackets s2 (slot e ne) s3) : ∃ m, t.mapMarkers ⟨b, e⟩ p = some m ∧
      m.entries = L ++ (b, openMarker s1 p) ::
        (e, closeMarker ((inForce openArea none (L ++ (slot b nb ++ (M ++ slot e ne)))).map Prod.snd)) :: R := by
  obtain ⟨st, n0, hst, hent1, hec, hok, hfresh, hpresent⟩ := mapEnter_eq (p := p) hbe hent hLb hMb hMe hRe hL hb
  obtain ⟨st', n0', hrem, hent', hec', hok', hnil, hcons⟩ := removeMiddle_eq hent1 hM hok
  have hafter : st.areas.after b = M ++ (e, endMarker ne) :: R := after_of_mem hent1
  have hmarkers : t.mapMarkers ⟨b, e⟩ p = st'.sealEnd b e := by simp only [mapMarkers, hst, bind_some, hafter, hrem]
  have hnil0 : M = [] → n0' = n0 := by
    intro h
    have hst' := hnil h
    subst hst'
    subst h
    have hinj := hent'.symm.trans hent1
    simpa using hinj
  rw [hmarkers]
  cases ne with
  | none =>
    have hec0 : st'.endCollision = false := hec'.trans hec
    obtain ⟨hn0, hlast0, hpay0⟩ := hfresh rfl
    -- the flags describe what is in force before the end, whether or not there was a middle
    obtain ⟨hn0', hlast, hpay⟩ : n0' = openMarker s1 p ∧ st'.lastRemovedIsOpen = s2 ∧
        (s2 → (inForce openArea none (L ++ (slot b nb ++ M))).map Prod.snd = some st'.lastRemovedOpenPayload) := by
      by_cases hMnil : M = []
      · have hst' := hnil hMnil
        have hs2 : s = s2 := by subst hMnil; exact hM
        subst hst' hs2 hMnil
        exact ⟨(hnil0 rfl).trans hn0, hlast0, by simpa using hpay0⟩
      obtain ⟨h1, h2, h3⟩ := hcons hMnil
      refine ⟨h1, h2, fun h => ?_⟩
      rw [← append_assoc, inForce_append]
      exact (h3 h).2 _
    have hval : (inForce openArea none (L ++ (slot b nb ++ (M ++ slot e none)))).map Prod.snd =
        (inForce openArea none (L ++ (slot b nb ++ M))).map Prod.snd := by simp [slot]
    rw [hval]
    have hbr : Brackets false (L ++ (slot b nb ++ M)) s2 := hL.append (hb.append hM)
    have hsome := hbr.isSome_inForce (c := none) rfl
    subst hn0'
    cases hs2 : s2 with
    | false =>
      rw [hs2] at hlast hsome
      have hnone : inForce openArea none (L ++ (slot b nb ++ M)) = none := by simpa using hsome
      exact ⟨st'.areas, by simp [MapState.sealEnd, hec0, hlast], by rw [hnone]; exact hent'⟩
    | true =>
      rw [hs2] at hlast hpay
      have hent'' : st'.areas.entries = (L ++ [(b, openMarker s1 p)]) ++ (e, .x) :: R := by simp [hent', endMarker]
      refine ⟨st'.areas.insert e (.xo st'.lastRemovedOpenPayload), by simp [MapState.sealEnd, hec0, hlast], ?_⟩
      rw [entries_insert_of_mem hent'', hpay rfl]
      simp [closeMarker]
  | some n =>
    have hlast0 := hpresent (by simp)
    obtain ⟨hn, -⟩ : n.isOpen = (!s2) ∧ (!n.isClose) = s3 := he
    have hval : (inForce openArea none (L ++ (slot b nb ++ (M ++ slot e (some n))))).map Prod.snd = n.get? := by
      rw [← append_assoc, ← append_assoc, slot, inForce_append_cons]
      cases n <;> rfl
    have hclose : closeMarker n.get? = endMarker (some n) := by cases n <;> rfl
    rw [hval, hclose]
    cases hopen : n.isOpen with
    | true =>
      -- the end opened an area: it becomes `XO`, and the middle left nothing open
      obtain rfl : s2 = false := by rw [hopen] at hn; simpa using hn
      have hcol : endCollides (some n) = false := by
        cases n <;> simp_all [Payload.isOpen, endCollides]
      have hec0 : st'.endCollision = false := by rw [hec', hec, hcol]
      obtain ⟨hn0', hlast⟩ : n0' = openMarker s1 p ∧ st'.lastRemovedIsOpen = false := by
        by_cases hMnil : M = []
        · have hst' := hnil hMnil
          refine ⟨?_, by rw [hst']; exact hlast0⟩
          rcases hok' with ⟨-, h⟩ | ⟨-, -, h⟩ | ⟨-, h1, h⟩
          · exact h
          · exact h
          · rw [h, ← h1]; rfl
        obtain ⟨h1, h2, -⟩ := hcons hMnil
        exact ⟨h1, h2⟩
      subst hn0'
      exact ⟨st'.areas, by simp [MapState.sealEnd, hec0, hlast], hent'⟩
    | false =>
      obtain rfl : s2 := by rw [hopen] at hn; simpa using hn.symm
      have hcol : endCollides (some n) := by
        cases n <;> simp_all [Payload.isOpen, endCollides]
      have hec0 : st'.endCollision := by rw [hec', hec, hcol]
      rcases hok' with ⟨hseen, rfl⟩ | ⟨-, h, -⟩ | ⟨hseen, h1, rfl⟩
      · exact ⟨st'.areas, by simp [MapState.sealEnd, hec0, hseen], hent'⟩
      · cases h
      -- begin lies in the area that ends here and nothing was removed
      have hset := setCloseOpenAt_eq hent' (p := p) rfl
      have hseal : st'.sealEnd b e = some (st'.areas.insert b (.xo p)) := by
        simp only [MapState.sealEnd, hec0, hseen, Bool.not_false, Bool.and_true, if_true, hset]
      refine ⟨_, hseal, ?_⟩
      rw [entries_insert_of_mem hent', ← h1]
      rfl

end

end ClosedForm

/-! ## Merging -/

def areaBefore (t : MemoryTableWithPayload T) (b : Nat) : Option (Nat × T) :=
  inForce openArea none (t.mAreas.entries.filter fun x => x.1 < b)

theorem areaBefore_of_cut (h : t.mAreas.entries = L ++ R) (hL : KeysLt L b)
    (hR : ∀ x ∈ R, b ≤ x.1) : t.areaBefore b = inForce openArea none L := by rw [areaBefore, h, filter_lt_append hL hR]

theorem areaBefore_zero (t : MemoryTableWithPayload T) : t.areaBefore 0 = none := by
  have hnil : t.mAreas.entries.filter (fun x => x.1 < 0) = [] := by simp
  rw [areaBefore, hnil]; rfl

theorem areaBefore_succ (t : MemoryTableWithPayload T) (a : Nat) : t.areaBefore (a + 1) = t.areaOf a := by
  simp only [areaBefore, areaOf, readAt, Nat.lt_succ_iff]

theorem exists_of_areaBefore {b : Nat} {x : Nat × T} (h : t.areaBefore b = some x) :
    ∃ a, b = a + 1 ∧ t.areaOf a = some x := by
  cases b with
  | zero => rw [areaBefore_zero] at h; cases h
  | succ a => exact ⟨a, rfl, by rw [← areaBefore_succ, h]⟩

/-- Where the area that holds the range begins after `map`: at the begin of the range, or further
left when `merge` joins it to an equal payload. -/
def mergedBegin [DecidableEq T] (t : MemoryTableWithPayload T) (b : Nat) (p : T) (merge : Bool) : Nat :=
  match t.areaBefore b with
  | none => b
  | some (k, d) => if merge = true ∧ d = p then k else b

section Merge

variable [DecidableEq T] {m : OrdMap Nat (Payload T)} {L R : List (Nat × Payload T)}
  {b e : Nat} {p : T} {n : Payload T} {s1 : Bool}

/-- The left merge keeps the begin marker unless the area before it has the same payload. -/
theorem mergeLeft_eq (hent : m.entries = L ++ (b, openMarker s1 p) :: (e, n) :: R) (hL : Brackets false L s1) :
    ∃ m' it B, mergeLeft m b = some (m', it) ∧ m'.entries = (L ++ B) ++ (e, n) :: R ∧
      Brackets s1 B true ∧ (∀ x ∈ B, x.1 = b) ∧
      it = (match inForce openArea none L with
        | none => b
        | some (k, d) => if d = p then k else b) ∧
      inForce openArea none (L ++ B) = some (it, p) := by
  have hfind := find?_of_mem hent
  have hsome := hL.isSome_inForce (c := none) rfl
  have hkeep : m.entries = (L ++ [(b, openMarker s1 p)]) ++ (e, n) :: R := by simp [hent]
  cases s1 with
  | false =>
    have hnone : inForce openArea none L = none := by simpa using hsome
    refine ⟨m, b, [(b, openMarker false p)], ?_, hkeep, ⟨rfl, rfl⟩, by simp, by rw [hnone], by rw [inForce_append]; rfl⟩
    simp [mergeLeft, hfind, openMarker]
  | true =>
    obtain ⟨⟨k, d⟩, hkd⟩ := isSome_iff_exists.mp hsome
    obtain ⟨L', n', rfl, hn'⟩ := exists_last_of_inForce hkd
    have hprev : m.prev b = some k := by rw [prev_of_mem hent]; simp
    have hent' : m.entries = L' ++ (k, n') :: ((b, openMarker true p) :: (e, n) :: R) := by simp [hent]
    have hget : (m.find? k).bind Payload.get? = some d := by rw [find?_of_mem hent']; exact hn'
    have hmerge : mergeLeft m b = if d = p then some (m.erase b, k) else some (m, b) := by
      simp only [mergeLeft, hfind, openMarker, if_true, hprev, hget]
    rw [hmerge, hkd]
    by_cases hdp : d = p
    · subst hdp
      refine ⟨m.erase b, k, [], by simp, ?_, rfl, by simp, by simp, by simpa using hkd⟩
      rw [entries_erase_of_mem hent]; simp
    refine ⟨m, b, [(b, openMarker true p)], by simp [hdp], hkeep, ⟨rfl, rfl⟩, by simp,
      by simp [hdp], by rw [inForce_append]; rfl⟩

/-- The right merge, when `it` holds the payload `p`. -/
theorem mergeRight_eq {v : Option T} {it : Nat}
    (hent : m.entries = L ++ (e, closeMarker v) :: R) (hit : (m.find? it).bind Payload.get? = some p) :
    ∃ m' E, mergeRight m it e = some m' ∧ m'.entries = L ++ (E ++ R) ∧ Brackets true E v.isSome ∧
      E = if v = some p then [] else [(e, closeMarker v)] := by
  have hfind := find?_of_mem hent
  cases v with
  | none =>
    refine ⟨m, [(e, .x)], by simp [mergeRight, hfind, closeMarker], hent, ⟨rfl, rfl⟩, by
      simp [closeMarker]⟩
  | some d =>
    have hmerge : mergeRight m it e = if d = p then some (m.erase e) else some m := by
      simp only [mergeRight, hfind, closeMarker, hit]
    rw [hmerge]
    by_cases hdp : d = p
    · subst hdp
      exact ⟨m.erase e, [], by simp, by rw [entries_erase_of_mem hent]; rfl, rfl, by simp⟩
    exact ⟨m, [(e, .xo d)], by simp [hdp], hent, ⟨rfl, rfl⟩, by simp [hdp, closeMarker]⟩

end Merge

/-- The area that was in force at the end of a spliced range began at or before it. -/
theorem le_of_inForce_mid {m m' : OrdMap Nat (Payload T)} {k : Nat} {d : T} (c : Splice m m' b e)
    (h : inForce openArea none (c.L ++ c.mid) = some (k, d)) : k ≤ e := by
  obtain ⟨L', n', hcat, -⟩ := exists_last_of_inForce h
  have hmem : (k, n') ∈ c.L ++ c.mid := by rw [hcat]; simp
  rcases mem_append.mp hmem with hmem | hmem
  · exact (lt_trans (c.keysL _ hmem) c.lt).le
  · exact (c.keysMid _ hmem).2

/-! ## What `map` means -/

section Spec

variable [DecidableEq T] {t : MemoryTableWithPayload T} {b e : Nat} {p : T}

/-- The area of `a` after `map(⟨b, e⟩, p, merge)`, from the table before it. -/
def mappedArea (t : MemoryTableWithPayload T) (b e : Nat) (p : T) (merge : Bool) (a : Nat) : Option (Nat × T) :=
  if a < b then t.areaOf a
  else if a < e then some (t.mergedBegin b p merge, p)
  else
    match t.areaOf a with
    | none => none
    | some (k, d) =>
      if e < k then some (k, d)
      else if merge = true ∧ d = p then some (t.mergedBegin b p merge, p)
      else some (e, d)

theorem mergedBegin_false : t.mergedBegin b p false = b := by unfold mergedBegin; split <;> simp

variable [Inhabited T]

/-- The markers `map` leaves: the range opens at `b` unless it was joined to the left, and closes
at `e` unless it was joined to the right. -/
theorem WF.exists_map_splice (hwf : t.WF) (hbe : b < e) (p : T) (merge : Bool) :
    ∃ t', ∃ c : Splice t.mAreas t'.mAreas b e, t.map ⟨b, e⟩ p merge false = some (t', t.mergedBegin b p merge) ∧ t'.WF ∧
      inForce openArea none (c.L ++ c.B) = some (t.mergedBegin b p merge, p) ∧
      c.E = if merge ∧ (inForce openArea none (c.L ++ c.mid)).map Prod.snd = some p then []
        else [(e, closeMarker ((inForce openArea none (c.L ++ c.mid)).map Prod.snd))] := by
  obtain ⟨L, nb, M, ne, R, hent, hLb, hMb, hMe, hRe⟩ := exists_range_cut t.mAreas b e
  have hbr : Brackets false (L ++ (slot b nb ++ (M ++ (slot e ne ++ R)))) false := by rw [← hent]; exact hwf
  obtain ⟨s1, hL, hbr1⟩ := hbr.exists_of_append
  obtain ⟨s, hb, hbr2⟩ := hbr1.exists_of_append
  obtain ⟨s2, hM, hbr3⟩ := hbr2.exists_of_append
  obtain ⟨s3, he, hR⟩ := hbr3.exists_of_append
  obtain ⟨m, hm, hentm⟩ := mapMarkers_eq (p := p) hbe hent hLb hMb hMe hRe hL hb hM he
  have hmid : ∀ x ∈ slot b nb ++ (M ++ slot e ne), b ≤ x.1 ∧ x.1 ≤ e := by
    intro x hx
    rcases mem_append.mp hx with hx | hx
    · cases nb <;> simp_all [slot, hbe.le]
    rcases mem_append.mp hx with hx | hx
    · exact ⟨(hMb x hx).le, (hMe x hx).le⟩
    · cases ne <;> simp_all [slot, hbe.le]
  have hsome : (inForce openArea none (L ++ (slot b nb ++ (M ++ slot e ne)))).isSome = s3 :=
    (hL.append (hb.append (hM.append he))).isSome_inForce rfl
  -- the splice for given begin and end markers
  let splice (t' : MemoryTableWithPayload T) (B E : List (Nat × Payload T))
      (hnew : t'.mAreas.entries = (L ++ B) ++ (E ++ R)) (hB : ∀ x ∈ B, x.1 = b)
      (hE : ∀ x ∈ E, x.1 = e) : Splice t.mAreas t'.mAreas b e :=
    ⟨L, slot b nb ++ (M ++ slot e ne), R, B, E, by simp [hent], hnew, hbe, hLb, hmid, hRe, hB, hE⟩
  have hvalid : (AddressRange.mk b e).isValid := by simpa using hbe
  have hwf' : ∀ (t' : MemoryTableWithPayload T) (B E : List (Nat × Payload T)),
      t'.mAreas.entries = (L ++ B) ++ (E ++ R) → Brackets s1 B true → Brackets true E s3 →
      t'.WF := by
    intro t' B E hnew hB hE
    rw [WF, hnew]
    exact (hL.append hB).append (hE.append hR)
  cases merge with
  | false =>
    have hent' : m.entries = (L ++ [(b, openMarker s1 p)]) ++ ([(e, closeMarker
        ((inForce openArea none (L ++ (slot b nb ++ (M ++ slot e ne)))).map Prod.snd))] ++ R) := by rw [hentm]; simp
    refine ⟨⟨m⟩, splice ⟨m⟩ _ _ hent' (by simp) (by simp), ?_, ?_, ?_, by simp [splice]⟩
    · simp [map, hvalid, hm, mergedBegin_false]
    · refine hwf' ⟨m⟩ _ _ hent' ⟨?_, ?_⟩ ⟨?_, ?_⟩
      · cases s1 <;> rfl
      · cases s1 <;> rfl
      · cases inForce openArea none (L ++ (slot b nb ++ (M ++ slot e ne))) <;> rfl
      rw [← hsome]
      cases inForce openArea none (L ++ (slot b nb ++ (M ++ slot e ne))) <;> rfl
    rw [mergedBegin_false, inForce_append_cons]
    cases s1 <;> rfl
  | true =>
    obtain ⟨m1, it, B, hleft, hent1, hBbr, hBkey, hit, hBarea⟩ := mergeLeft_eq hentm hL
    have hitfind : (m1.find? it).bind Payload.get? = some p := by
      obtain ⟨L', n', hLB, hn'⟩ := exists_last_of_inForce hBarea
      rw [hLB, append_assoc] at hent1
      rw [find?_of_mem hent1]; exact hn'
    obtain ⟨m2, E, hright, hent2, hEbr, hE⟩ := mergeRight_eq hent1 hitfind
    have hEkey : ∀ x ∈ E, x.1 = e := by
      intro x hx
      rw [hE] at hx
      split at hx
      · cases hx
      · rw [mem_singleton.mp hx]
    have hmb : t.mergedBegin b p true = it := by
      have hbefore : t.areaBefore b = inForce openArea none L := by
        refine areaBefore_of_cut hent hLb fun x hx => ?_
        rw [← append_assoc, ← append_assoc, append_assoc (slot b nb)] at hx
        rcases mem_append.mp hx with hx | hx
        · exact (hmid x hx).1
        · exact (lt_trans hbe (hRe x hx)).le
      rw [hit, mergedBegin, hbefore]
      cases inForce openArea none L <;> simp
    rw [hmb]
    refine ⟨⟨m2⟩, splice ⟨m2⟩ B E hent2 hBkey hEkey, ?_, ?_, hBarea, ?_⟩
    · simp [map, hvalid, hm, hleft, hright]
    · refine hwf' ⟨m2⟩ B E hent2 hBbr ?_
      rw [← hsome]; simpa using hEbr
    exact hE.trans (if_congr (and_iff_right rfl).symm rfl rfl)

/-- **`map` on a well-formed table**: it succeeds, keeps the bracket invariant, returns the area
that holds the range, and changes the meaning of the table as `mappedArea` says. -/
theorem WF.map_spec (hwf : t.WF) (hbe : b < e) (p : T) (merge : Bool) :
    ∃ t', t.map ⟨b, e⟩ p merge false = some (t', t.mergedBegin b p merge) ∧ t'.WF ∧
      ∀ a, t'.areaOf a = t.mappedArea b e p merge a := by
  obtain ⟨t', c, hmap, hwf', hB, hE⟩ := hwf.exists_map_splice hbe p merge
  refine ⟨t', hmap, hwf', fun a => ?_⟩
  unfold mappedArea
  by_cases hab : a < b
  · rw [if_pos hab, areaOf, areaOf, c.readAt_left hab]
  rw [if_neg hab]
  by_cases hae : a < e
  · rw [if_pos hae, areaOf, c.readAt_inside (not_lt.mp hab) hae, hB]
  rw [if_neg hae]
  rcases c.readAt_right openArea none (not_lt.mp hae) with
    ⟨hold, hnew⟩ | ⟨⟨k, n⟩, hek, hold, hnew⟩
  · -- the area that reaches over the end
    rw [areaOf, areaOf, hold, hnew, inForce_append, hB, hE]
    cases hA : inForce openArea none (c.L ++ c.mid) with
    | none => simp [inForce, openArea, closeMarker, Payload.get?]
    | some kd =>
      obtain ⟨k, d⟩ := kd
      show _ = if e < k then _ else if merge ∧ d = p then _ else _
      rw [if_neg (not_lt.mpr (le_of_inForce_mid c hA))]
      by_cases hcond : merge ∧ d = p
      · rw [if_pos (by simpa using hcond), if_pos hcond]; rfl
      · rw [if_neg (by simpa using hcond), if_neg hcond]; rfl
  -- one that begins later
  rw [areaOf, areaOf, hold, hnew, openArea]
  cases n.get? with
  | none => rfl
  | some d => exact (if_pos hek).symm

end Spec

end MemoryTableWithPayload

end Rpcsx.Rx
