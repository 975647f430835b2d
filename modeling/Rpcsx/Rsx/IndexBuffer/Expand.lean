import Mathlib.Data.List.Induction
import Rpcsx.Rsx.IndexBuffer.Basic

/-!
# What the expansion of primitives draws

The indices between two restarts make a segment, and a segment is drawn as triangles or lines of its
own. The loops go over the indices once: a fan keeps its first and its last index, and a quad up to
three. As the last index of a fan is compared with the greatest one to see whether there is one, the
greatest index loses the triangle that begins with it.
-/

namespace Rpcsx.Rsx

open List

variable {t : IndexArrayType} {segs : List (List (Index t))} {re : Bool}

/-! ## The primitives of a segment -/

section Reference

variable {α : Type}

def fanOf : List α → List α
  | [] => []
  | first :: rest => (rest.zip rest.tail).flatMap fun e => [first, e.1, e.2]

def quadsOf : List α → List α
  | a :: b :: c :: d :: rest => [a, b, c, c, d, a] ++ quadsOf rest
  | _ => []

def loopOf : List α → List α
  | [] => []
  | first :: rest => first :: rest ++ [first]

/-- How a mode draws a segment. -/
def primitivesOf : PrimitiveType → List α → List α
  | .lineLoop => loopOf
  | .polygon | .triangleFan => fanOf
  | .quads => quadsOf
  | _ => id

end Reference

def segments (restartEnabled : Bool) (restartIndex : Nat) (src : List (Index t)) : List (List (Index t)) :=
  src.splitOnP (isRestart restartEnabled restartIndex)

def reference (drawMode : PrimitiveType) (restartEnabled : Bool) (restartIndex : Nat)
    (src : List (Index t)) : List (Index t) :=
  (segments restartEnabled restartIndex src).flatMap (primitivesOf drawMode)

/-- What the destination holds after the writes. -/
def buffer (writes : List (Nat × Index t)) (i : Nat) : Option (Index t) :=
  (writes.reverse.find? fun w => w.1 == i).map Prod.snd

/-- The destination holds these indices and nothing else, inside of its bounds, and the numbers that
are returned are right. -/
structure Draws (u : Upload t) (dstSize : Nat) (indices : List (Index t)) : Prop where
  content (i : Nat) : buffer u.writes i = indices[i]?
  inside : ∀ w ∈ u.writes, w.1 < dstSize
  written : u.written = indices.length
  minIndex : u.minIndex = indices.foldl min indexLimit
  maxIndex : u.maxIndex = indices.foldl max 0

/-! ## Segments -/

section Segments

variable {re : Bool} {ri : Nat} {index : Index t} {src : List (Index t)}

theorem segments_restart (h : isRestart re ri index) : segments re ri (index :: src) = [] :: segments re ri src := by
  rw [segments, splitOnP_cons_eq_if_modifyHead, if_pos h]
  rfl

theorem exists_segments (re : Bool) (ri : Nat) (src : List (Index t)) : ∃ seg segs, segments re ri src = seg :: segs :=
  exists_cons_of_ne_nil (splitOnP_ne_nil _ src)

theorem segments_cons (h : ¬isRestart re ri index) {seg : List (Index t)} {segs : List (List (Index t))}
    (hsegs : segments re ri src = seg :: segs) :
    segments re ri (index :: src) = (index :: seg) :: segs := by
  rw [segments, splitOnP_cons_eq_if_modifyHead, if_neg h]
  change modifyHead _ (segments re ri src) = _
  rw [hsegs, modifyHead_cons]

/-- The indices of the segments are those that are not restarts. -/
theorem flatten_segments (src : List (Index t)) : (segments re ri src).flatten =
      src.filter fun index => !isRestart re ri index := by
  induction src with
  | nil => rfl
  | cons index src ih =>
    by_cases h : isRestart re ri index
    · rw [segments_restart h, flatten_cons, nil_append, ih, filter_cons_of_neg (by simp [h])]
    obtain ⟨seg, segs, hsegs⟩ := exists_segments re ri src
    rw [segments_cons h hsegs, filter_cons_of_pos (by simp [h]), ← ih, hsegs]
    rfl

end Segments

/-- A loop over the indices that draws segment after segment: `draws s` is what it makes of the rest of
the segment that it is in, and `drawsNew` what it makes of a new one. -/
structure Scan (restart : Index t → Bool) (S : Type) where
  step : S → Index t → S
  out : S → List (Index t)
  draws : S → List (Index t) → List (Index t)
  drawsNew : List (Index t) → List (Index t)
  Inv : S → Prop
  draws_nil (s : S) : Inv s → draws s [] = []
  inv_step (s : S) (index : Index t) : Inv s → Inv (step s index)
  step_restart (s : S) (index : Index t) :
    restart index = true → out (step s index) = out s ∧ draws (step s index) = drawsNew
  step_index (s : S) (index : Index t) (seg : List (Index t)) : Inv s → ¬restart index = true →
    out (step s index) ++ draws (step s index) seg = out s ++ draws s (index :: seg)

theorem Scan.out_foldl {ri : Nat} {S : Type} (scan : Scan (isRestart (t := t) re ri) S) {src : List (Index t)} {s : S}
    (hs : scan.Inv s) {seg : List (Index t)}
    (hsegs : segments re ri src = seg :: segs) :
    scan.out (src.foldl scan.step s) = scan.out s ++ scan.draws s seg ++ segs.flatMap scan.drawsNew := by
  induction src generalizing s seg segs with
  | nil =>
    obtain ⟨rfl, rfl⟩ : [] = seg ∧ [] = segs := cons.inj hsegs
    rw [scan.draws_nil s hs, append_nil]
    exact (append_nil _).symm
  | cons index src ih =>
    obtain ⟨seg', segs', hsegs'⟩ := exists_segments re ri src
    have hinv := scan.inv_step s index hs
    rw [foldl_cons, ih hinv hsegs']
    by_cases h : isRestart re ri index
    · obtain ⟨hout, hdraws⟩ := scan.step_restart s index h
      rw [segments_restart h, hsegs'] at hsegs
      cases hsegs
      rw [hout, hdraws, scan.draws_nil s hs, append_nil, flatMap_cons, append_assoc]
    rw [segments_cons h hsegs'] at hsegs
    cases hsegs
    rw [scan.step_index s index seg' hs h]

/-! ## Extremes -/

theorem minMax_add (m : MinMax t) (index : Index t) : m.add index = ⟨min m.minIndex index, max m.maxIndex index⟩ := by
  unfold MinMax.add
  rw [min_def, max_def]
  congr 1
  · split_ifs with h h' h'
    · exact absurd h (not_lt.mpr h')
    · rfl
    · rfl
    · exact absurd (not_le.mp h') h
  split_ifs with h h' h'
  · rfl
  · exact absurd h.le h'
  · exact le_antisymm h' (not_lt.mp h)
  · rfl

theorem foldl_add (l : List (Index t)) (m : MinMax t) :
    l.foldl MinMax.add m = ⟨l.foldl min m.minIndex, l.foldl max m.maxIndex⟩ := by
  induction l generalizing m with
  | nil => rfl
  | cons index l ih => rw [foldl_cons, ih, minMax_add, foldl_cons, foldl_cons]

/-- A loop that adds every index but the restarts to the extremes. -/
theorem minMax_foldl {S : Type} {ri : Nat} (minMax : S → MinMax t) (step : S → Index t → S)
    (hstep : ∀ s index, minMax (step s index) = if isRestart re ri index then minMax s else (minMax s).add index)
    (src : List (Index t)) (s : S) :
    minMax (src.foldl step s) = (segments re ri src).flatten.foldl MinMax.add (minMax s) := by
  rw [flatten_segments]
  induction src generalizing s with
  | nil => rfl
  | cons index src ih =>
    rw [foldl_cons, ih, hstep]
    by_cases h : isRestart re ri index
    · rw [if_pos h, filter_cons_of_neg (by simp [h])]
    · rw [if_neg h, filter_cons_of_pos (by simp [h]), foldl_cons]

variable {l : List (Index t)} {a b : Index t} {dstSize : Nat}

theorem le_foldl_min : a ≤ l.foldl min b ↔ a ≤ b ∧ ∀ v ∈ l, a ≤ v := by
  induction l generalizing b with
  | nil => simp
  | cons v l ih => rw [foldl_cons, ih, le_min_iff, forall_mem_cons, and_assoc]

theorem foldl_max_le : l.foldl max b ≤ a ↔ b ≤ a ∧ ∀ v ∈ l, v ≤ a := by
  induction l generalizing b with
  | nil => simp
  | cons v l ih => rw [foldl_cons, ih, max_le_iff, forall_mem_cons, and_assoc]

/-- A fold of choices ends with one of the indices. -/
theorem foldl_mem {op : Index t → Index t → Index t} (hop : ∀ a b, op a b = a ∨ op a b = b) (l : List (Index t))
    (a : Index t) : l.foldl op a ∈ a :: l := by
  induction l generalizing a with
  | nil => exact mem_singleton_self a
  | cons v l ih =>
    obtain h | h := mem_cons.mp (ih (op a v))
    · rw [foldl_cons, h]
      obtain hop | hop := hop a v <;> simp [hop]
    exact mem_cons_of_mem _ (mem_cons_of_mem _ h)

theorem foldl_min_mem (hl : l ≠ []) : l.foldl min indexLimit ∈ l := by
  -- Every index is at most the limit, so the first turn of the fold takes the first index.
  obtain ⟨v, l, rfl⟩ := exists_cons_of_ne_nil hl
  rw [foldl_cons, min_eq_right (show v ≤ indexLimit from Fin.le_last v)]
  exact foldl_mem min_choice l v

theorem foldl_max_mem (hl : l ≠ []) : l.foldl max 0 ∈ l := by
  obtain ⟨v, l, rfl⟩ := exists_cons_of_ne_nil hl
  rw [foldl_cons, max_eq_right (Fin.zero_le v)]
  exact foldl_mem max_choice l v

theorem zero_lt_indexLimit : (0 : Index t) < indexLimit := by
  cases t <;> decide

/-- Two lists, one in the other, have the same extremes exactly if nothing of the greater one lies
outside of the smaller one. -/
theorem extremes_iff {r : List (Index t)} (hsub : ∀ v ∈ r, v ∈ l) :
    (l.foldl min indexLimit = r.foldl min indexLimit ∧ l.foldl max 0 = r.foldl max 0) ↔
      ∀ v ∈ l, (∃ u ∈ r, u ≤ v) ∧ ∃ u ∈ r, v ≤ u := by
  constructor
  · rintro ⟨hmin, hmax⟩ v hv
    have hle : r.foldl min indexLimit ≤ v := hmin ▸ (le_foldl_min.mp le_rfl).2 v hv
    have hge : v ≤ r.foldl max 0 := hmax ▸ (foldl_max_le.mp le_rfl).2 v hv
    by_cases hr : r = []
    · -- Extremes of no index are crossed.
      subst hr
      exact absurd (hle.trans hge) (not_le.mpr zero_lt_indexLimit)
    exact ⟨⟨_, foldl_min_mem hr, hle⟩, ⟨_, foldl_max_mem hr, hge⟩⟩
  intro h
  constructor
  · apply le_antisymm
    · exact le_foldl_min.mpr ⟨Fin.le_last _, fun v hv => (le_foldl_min.mp le_rfl).2 v (hsub v hv)⟩
    refine le_foldl_min.mpr ⟨Fin.le_last _, fun v hv => ?_⟩
    obtain ⟨u, hu, huv⟩ := (h v hv).1
    exact ((le_foldl_min.mp le_rfl).2 u hu).trans huv
  apply le_antisymm
  · refine foldl_max_le.mpr ⟨Fin.zero_le _, fun v hv => ?_⟩
    obtain ⟨u, hu, huv⟩ := (h v hv).2
    exact huv.trans ((foldl_max_le.mp le_rfl).2 u hu)
  exact foldl_max_le.mpr ⟨Fin.zero_le _, fun v hv => (foldl_max_le.mp le_rfl).2 v (hsub v hv)⟩

/-! ## Fans -/

section Fan

variable (re : Bool) (ri : Nat) {rest : List (Index t)} {anchor : Index t}

def fanPairs (anchor : Index t) : List (Index t) → List (Index t)
  | a :: b :: rest =>
    (if a = indexLimit then [] else [anchor, a, b]) ++ fanPairs anchor (b :: rest)
  | _ => []

def fanLoopOf : List (Index t) → List (Index t)
  | [] => []
  | first :: rest => fanPairs first rest

theorem fanPairs_limit (anchor : Index t) (rest : List (Index t)) :
    fanPairs anchor (indexLimit :: rest) = fanPairs anchor rest := by
  cases rest with
  | nil => rfl
  | cons b rest => rw [fanPairs, if_pos rfl, nil_append]

def fanRest (s : FanState t) (seg : List (Index t)) : List (Index t) :=
  if s.needsAnchor then fanLoopOf seg else fanPairs s.anchor (s.lastIndex :: seg)

def fanScan : Scan (isRestart (t := t) re ri) (FanState t) where
  step := fanStep re ri
  out := FanState.out
  draws := fanRest
  drawsNew := fanLoopOf
  Inv s := s.needsAnchor = true → s.lastIndex = indexLimit
  draws_nil s _ := by
    unfold fanRest
    split <;> rfl
  inv_step s index hs := by
    unfold fanStep
    split_ifs with hanchor hrestart hrestart hlast
    · exact hs
    · exact False.elim
    · exact fun _ => rfl
    · intro h
      exact absurd h hanchor
    · intro h
      exact absurd h hanchor
  step_restart s index hrestart := by
    unfold fanStep
    rw [if_pos hrestart, if_pos hrestart]
    split_ifs with hanchor
    · refine ⟨rfl, funext fun seg => ?_⟩
      rw [fanRest, if_pos hanchor]
    · exact ⟨rfl, rfl⟩
  step_index s index seg hs hrestart := by
    unfold fanStep
    rw [if_neg hrestart, if_neg hrestart]
    split_ifs with hanchor hlast
    · unfold fanRest
      rw [if_pos hanchor, hs hanchor]
      exact congrArg (s.out ++ ·) (fanPairs_limit index seg)
    · unfold fanRest
      rw [if_neg hanchor, if_neg hanchor, hlast, fanPairs_limit]
    · unfold fanRest
      rw [if_neg hanchor, if_neg hanchor, fanPairs, if_neg hlast, append_assoc]

theorem out_foldl_fanStep (src : List (Index t)) (m : MinMax t) (anchor : Index t) :
    (src.foldl (fanStep re ri) ⟨m, [], true, anchor, indexLimit⟩).out = (segments re ri src).flatMap fanLoopOf := by
  obtain ⟨seg, segs, hsegs⟩ := exists_segments re ri src
  rw [hsegs]
  exact (fanScan re ri).out_foldl (fun _ => rfl) hsegs

theorem minMax_foldl_fanStep (src : List (Index t)) (s : FanState t) : (src.foldl (fanStep re ri) s).minMax =
      (segments re ri src).flatten.foldl MinMax.add s.minMax := by
  refine minMax_foldl FanState.minMax _ (fun s index => ?_) src s
  unfold fanStep
  split_ifs <;> rfl

theorem fanOf_cons_cons (first a b : Index t) (rest : List (Index t)) :
    fanOf (first :: a :: b :: rest) = [first, a, b] ++ fanOf (first :: b :: rest) := rfl

theorem length_fanOf (first : Index t) (rest : List (Index t)) :
    (fanOf (first :: rest)).length = 3 * (rest.length - 1) := by
  induction rest with
  | nil => rfl
  | cons a rest ih =>
    cases rest with
    | nil => rfl
    | cons b rest =>
      rw [fanOf_cons_cons, length_append, ih]
      simp only [length_cons, length_nil]
      omega

/-- The loop loses a triangle for every index but the last one that is the greatest. -/
theorem length_fanPairs_le (anchor : Index t) (rest : List (Index t)) :
    (fanPairs anchor rest).length ≤ (fanOf (anchor :: rest)).length := by
  induction rest with
  | nil => exact le_rfl
  | cons a rest ih =>
    cases rest with
    | nil => exact le_rfl
    | cons b rest =>
      rw [fanPairs, fanOf_cons_cons, length_append, length_append]
      refine Nat.add_le_add ?_ ih
      split_ifs
      · exact Nat.zero_le _
      · exact le_rfl

theorem fanPairs_eq (h : indexLimit ∉ rest.dropLast) : fanPairs anchor rest = fanOf (anchor :: rest) := by
  induction rest with
  | nil => rfl
  | cons a rest ih =>
    cases rest with
    | nil => rfl
    | cons b rest =>
      rw [dropLast_cons_cons, mem_cons, not_or] at h
      rw [fanPairs, fanOf_cons_cons, if_neg (Ne.symm h.1), ih h.2]

theorem not_mem_dropLast_of_length_eq
    (h : (fanPairs anchor rest).length = (fanOf (anchor :: rest)).length) : indexLimit ∉ rest.dropLast := by
  induction rest with
  | nil => exact not_mem_nil
  | cons a rest ih =>
    cases rest with
    | nil => exact not_mem_nil
    | cons b rest =>
      rw [fanPairs, fanOf_cons_cons, length_append, length_append] at h
      have hle := length_fanPairs_le anchor (b :: rest)
      rw [dropLast_cons_cons, mem_cons, not_or]
      split_ifs at h with ha
      · simp only [length_nil, length_cons] at h
        omega
      exact ⟨Ne.symm ha, ih (Nat.add_left_cancel h)⟩

theorem length_fanLoopOf_le (seg : List (Index t)) : (fanLoopOf seg).length ≤ (fanOf seg).length := by
  cases seg with
  | nil => exact le_rfl
  | cons first rest => exact length_fanPairs_le first rest

/-- The loop draws the segments as fans exactly if no triangle but the last of a segment has the
greatest index behind the first one. -/
theorem flatMap_fanLoopOf_iff (segs : List (List (Index t))) :
    segs.flatMap fanLoopOf = segs.flatMap fanOf ↔ ∀ seg ∈ segs, indexLimit ∉ seg.tail.dropLast := by
  constructor
  · intro h
    have hlength := congrArg length h
    clear h
    induction segs with
    | nil => exact fun _ h => absurd h not_mem_nil
    | cons seg segs ih =>
      rw [flatMap_cons, flatMap_cons, length_append, length_append] at hlength
      have hseg := length_fanLoopOf_le seg
      have hsegs : (segs.flatMap fanLoopOf).length ≤ (segs.flatMap fanOf).length := by
        clear ih hlength
        induction segs with
        | nil => exact le_rfl
        | cons seg segs ih =>
          rw [flatMap_cons, flatMap_cons, length_append, length_append]
          exact Nat.add_le_add (length_fanLoopOf_le seg) ih
      refine forall_mem_cons.mpr ⟨?_, ih (by omega)⟩
      cases seg with
      | nil => exact not_mem_nil
      | cons first rest =>
        have heq : (fanLoopOf (first :: rest)).length = (fanOf (first :: rest)).length := by omega
        exact not_mem_dropLast_of_length_eq heq
  intro h
  induction segs with
  | nil => rfl
  | cons seg segs ih =>
    obtain ⟨hseg, hsegs⟩ := forall_mem_cons.mp h
    rw [flatMap_cons, flatMap_cons, ih hsegs]
    cases seg with
    | nil => rfl
    | cons first rest =>
      have heq : fanPairs first rest = fanOf (first :: rest) := fanPairs_eq hseg
      rw [fanLoopOf, heq]

theorem mem_fanOf {seg : List (Index t)} {v : Index t} (hv : v ∈ fanOf seg) : v ∈ seg := by
  cases seg with
  | nil => exact hv
  | cons first rest =>
    obtain ⟨e, he, hv⟩ := mem_flatMap.mp hv
    obtain rfl | rfl | rfl : v = first ∨ v = e.1 ∨ v = e.2 := by simpa using hv
    · exact mem_cons_self
    · exact mem_cons_of_mem _ (of_mem_zip he).1
    · exact mem_cons_of_mem _ (mem_of_mem_tail (of_mem_zip he).2)

theorem length_flatMap_fanOf_le (segs : List (List (Index t))) :
    (segs.flatMap fanOf).length ≤ 3 * (segs.flatten.length - 2) := by
  induction segs with
  | nil => exact Nat.zero_le _
  | cons seg segs ih =>
    rw [flatMap_cons, flatten_cons, length_append, length_append]
    cases seg with
    | nil => exact (Nat.zero_add _).le.trans (ih.trans (by simp))
    | cons first rest =>
      rw [length_fanOf, length_cons]
      omega

end Fan

/-! ## Quads -/

section Quads

variable (re : Bool) (ri : Nat)

def quadScan : Scan (isRestart (t := t) re ri) (QuadState t) where
  step := quadStep re ri
  out := QuadState.out
  draws s seg := quadsOf (s.tmpIndices ++ seg)
  drawsNew := quadsOf
  Inv s := s.tmpIndices.length < 4
  draws_nil s hs := by
    obtain ⟨m, out, tmp⟩ := s
    match tmp, hs with
    | [], _ | [_], _ | [_, _], _ | [_, _, _], _ => rfl
  inv_step s index hs := by
    obtain ⟨m, out, tmp⟩ := s
    unfold quadStep
    split_ifs
    · exact Nat.zero_lt_succ 3
    · match tmp, hs with
      | [], _ | [_], _ | [_, _], _ | [_, _, _], _ => simp
  step_restart s index hrestart := by
    unfold quadStep
    rw [if_pos hrestart]
    exact ⟨rfl, rfl⟩
  step_index s index seg hs hrestart := by
    obtain ⟨m, out, tmp⟩ := s
    unfold quadStep
    rw [if_neg hrestart]
    match tmp, hs with
    | [], _ | [_], _ | [_, _], _ => rfl
    | [a, b, c], _ => exact append_assoc out [a, b, c, c, index, a] (quadsOf seg)

theorem out_foldl_quadStep (src : List (Index t)) (m : MinMax t) : (src.foldl (quadStep re ri) ⟨m, [], []⟩).out =
      (segments re ri src).flatMap quadsOf := by
  obtain ⟨seg, segs, hsegs⟩ := exists_segments re ri src
  rw [hsegs]
  exact (quadScan re ri).out_foldl (s := ⟨m, [], []⟩) (Nat.zero_lt_succ 3) hsegs

theorem minMax_foldl_quadStep (src : List (Index t)) (s : QuadState t) : (src.foldl (quadStep re ri) s).minMax =
      (segments re ri src).flatten.foldl MinMax.add s.minMax := by
  refine minMax_foldl QuadState.minMax _ (fun s index => ?_) src s
  unfold quadStep
  split_ifs
  · rfl
  · split <;> rfl

theorem length_quadsOf (seg : List (Index t)) : (quadsOf seg).length = 6 * (seg.length / 4) := by
  fun_induction quadsOf seg with
  | case1 a b c d rest ih =>
    rw [length_append, ih]
    simp only [length_cons, length_nil]
    omega
  | case2 seg h =>
    match seg, h with
    | [], _ | [_], _ | [_, _], _ | [_, _, _], _ => simp
    | a :: b :: c :: d :: rest, h => exact absurd rfl (h a b c d rest)

theorem mem_quadsOf {seg : List (Index t)} {v : Index t} (hv : v ∈ quadsOf seg) : v ∈ seg := by
  fun_induction quadsOf seg with
  | case1 a b c d rest ih =>
    obtain hv | hv := mem_append.mp hv
    · grind
    · simp [ih hv]
  | case2 seg h => exact absurd hv not_mem_nil

theorem length_flatMap_quadsOf_le (segs : List (List (Index t))) :
    4 * (segs.flatMap quadsOf).length ≤ 6 * segs.flatten.length := by
  induction segs with
  | nil => exact le_rfl
  | cons seg segs ih =>
    rw [flatMap_cons, flatten_cons, length_append, length_append, length_quadsOf]
    omega

end Quads

/-! ## The destination -/

theorem buffer_sequential (out : List (Index t)) (i : Nat) : buffer (sequential out) i = out[i]? := by
  induction out using reverseRecOn with
  | nil => rfl
  | append_singleton out index ih =>
    have happend : sequential (out ++ [index]) = sequential out ++ [(out.length, index)] := by
      simp [sequential, zipIdx_append]
    rw [happend, buffer, reverse_append]
    by_cases h : out.length = i
    · subst h
      simp
    have hfind : buffer (sequential out ++ [(out.length, index)]) i = buffer (sequential out) i := by simp [buffer, h]
    rw [← reverse_append]
    refine hfind.trans (ih.trans ?_)
    rw [getElem?_append]
    split_ifs with hi
    · rfl
    rw [getElem?_eq_none (not_lt.mp hi), getElem?_eq_none]
    simp only [length_singleton]
    omega

theorem inside_sequential_iff {out : List (Index t)} :
    (∀ w ∈ sequential out, w.1 < dstSize) ↔ out.length ≤ dstSize := by
  constructor
  · intro h
    by_contra hlt
    have hi : dstSize < out.length := not_le.mp hlt
    refine absurd (h (dstSize, out[dstSize]) ?_) (lt_irrefl dstSize)
    exact mem_map.mpr ⟨(out[dstSize], dstSize), mem_zipIdx_iff_getElem?.mpr (by simp), rfl⟩
  intro h w hw
  obtain ⟨x, hx, rfl⟩ := mem_map.mp hw
  exact (snd_lt_of_mem_zipIdx hx).trans_le (by simpa using h)

/-- What a loop makes that writes one index after the other. -/
theorem draws_sequential_iff {out indices : List (Index t)} {minIndex maxIndex : Index t}
    (hsize : indices.length ≤ dstSize) :
    Draws ⟨sequential out, minIndex, maxIndex, out.length⟩ dstSize indices ↔
      out = indices ∧ minIndex = indices.foldl min indexLimit ∧ maxIndex = indices.foldl max 0 := by
  constructor
  · intro h
    refine ⟨ext_getElem? fun i => ?_, h.minIndex, h.maxIndex⟩
    rw [← buffer_sequential]
    exact h.content i
  rintro ⟨rfl, hmin, hmax⟩
  exact ⟨buffer_sequential out, inside_sequential_iff.mpr hsize, rfl, hmin, hmax⟩

/-! ## When the primitives are drawn -/

/-- The numbers of indices and the indices for which an expansion is right. -/
def Expandable (drawMode : PrimitiveType) (restartEnabled : Bool) (restartIndex : Nat)
    (src : List (Index t)) : Prop :=
  (match drawMode with
    | .polygon | .triangleFan =>
      3 * (src.length - 2) < 0x100000000 ∧
        ∀ seg ∈ segments restartEnabled restartIndex src, indexLimit ∉ seg.tail.dropLast
    | .quads => 6 * src.length < 0x100000000 ∧ src.length % 2 = 0
    | _ => False) ∧
  -- Indices that make no primitive are not beyond those that do.
  ∀ v ∈ (segments restartEnabled restartIndex src).flatten,
    (∃ u ∈ reference drawMode restartEnabled restartIndex src, u ≤ v) ∧
      ∃ u ∈ reference drawMode restartEnabled restartIndex src, v ≤ u

theorem length_flatten_segments_le (re : Bool) (ri : Nat) (src : List (Index t)) :
    (segments re ri src).flatten.length ≤ src.length := by
  rw [flatten_segments]
  exact length_filter_le _ _

theorem mem_flatten_of_flatMap {f : List (Index t) → List (Index t)}
    (hf : ∀ seg, ∀ v ∈ f seg, v ∈ seg) : ∀ v ∈ segs.flatMap f, v ∈ segs.flatten := by
  intro v hv
  obtain ⟨seg, hseg, hv⟩ := mem_flatMap.mp hv
  exact mem_flatten.mpr ⟨seg, hseg, hf seg v hv⟩

section Expansion

variable {re : Bool} {ri : Nat} {src : List (Index t)} {indices : List (Index t)} {dstSize : Nat}

/-- What a loop draws that adds every index of the segments to the extremes, if there is room. -/
theorem draws_iff {m : MinMax t} (out : List (Index t)) {full : Prop} [Decidable full]
    (hm : m = (segments re ri src).flatten.foldl MinMax.add .start)
    (hsize : ¬full → indices.length ≤ dstSize)
    (hsub : ∀ v ∈ indices, v ∈ (segments re ri src).flatten) :
    (∃ u, (if full then none else some ⟨sequential out, m.minIndex, m.maxIndex, out.length⟩) = some u ∧
        Draws u dstSize indices) ↔
      (¬full ∧ out = indices) ∧ ∀ v ∈ (segments re ri src).flatten, (∃ u ∈ indices, u ≤ v) ∧ ∃ u ∈ indices, v ≤ u := by
  have hmin : m.minIndex = (segments re ri src).flatten.foldl min indexLimit := by
    rw [hm, foldl_add]
    rfl
  have hmax : m.maxIndex = (segments re ri src).flatten.foldl max 0 := by
    rw [hm, foldl_add]
    rfl
  rw [← extremes_iff hsub, ← hmin, ← hmax]
  split_ifs with hfull
  · constructor
    · rintro ⟨u, h, -⟩
      exact h.elim
    rintro ⟨⟨h, -⟩, -⟩
    exact absurd hfull h
  constructor
  · rintro ⟨u, hu, h⟩
    cases hu
    obtain ⟨hout, hextremes⟩ := (draws_sequential_iff (hsize hfull)).mp h
    exact ⟨⟨hfull, hout⟩, hextremes⟩
  rintro ⟨⟨-, hout⟩, hextremes⟩
  exact ⟨_, rfl, (draws_sequential_iff (hsize hfull)).mpr ⟨hout, hextremes⟩⟩

/-- The size that `get_index_count` gives for a fan is enough unless it overflows. -/
theorem fan_fits_iff {n : Nat} (hn : 3 ≤ n) (hn' : n < 0x100000000) :
    ¬u32 (u32 (n + 0xfffffffe) * 3) < Rx.u64 (3 * Rx.u64Sub n 2) ↔ 3 * (n - 2) < 0x100000000 := by
  have hdiff : (n + 0xfffffffe) % 0x100000000 = n - 2 := by omega
  have hmul : 3 * (n - 2) % 0x10000000000000000 = 3 * (n - 2) := by omega
  unfold u32 Rx.u64 Rx.u64Sub
  rw [if_pos (by omega), hdiff, hmul]
  omega

theorem expandIndexedTriangleFan_iff (hn : 3 ≤ src.length) (hn' : src.length < 0x100000000) :
    (∃ u, expandIndexedTriangleFan src (u32 (u32 (src.length + 0xfffffffe) * 3)) re ri = some u ∧
      Draws u (u32 (u32 (src.length + 0xfffffffe) * 3)) ((segments re ri src).flatMap fanOf)) ↔
      (3 * (src.length - 2) < 0x100000000 ∧ ∀ seg ∈ segments re ri src, indexLimit ∉ seg.tail.dropLast) ∧
      ∀ v ∈ (segments re ri src).flatten, (∃ u ∈ (segments re ri src).flatMap fanOf, u ≤ v) ∧
          ∃ u ∈ (segments re ri src).flatMap fanOf, v ≤ u := by
  rw [← flatMap_fanLoopOf_iff, ← out_foldl_fanStep re ri src .start indexLimit, ← fan_fits_iff hn hn']
  refine draws_iff _ (minMax_foldl_fanStep re ri src _) ?_ (mem_flatten_of_flatMap fun _ _ => mem_fanOf)
  intro hfits
  have hlt := (fan_fits_iff hn hn').mp hfits
  have hsegs := length_flatMap_fanOf_le (segments re ri src)
  have hflatten := length_flatten_segments_le re ri src
  unfold u32
  omega

/-- The size that `get_index_count` gives for quads is rounded down, and then too small. -/
theorem quads_fit_iff {n : Nat} :
    ¬4 * (u32 (6 * n) / 4 * t.size) < 6 * (n * t.size) ↔ 6 * n < 0x100000000 ∧ n % 2 = 0 := by
  unfold u32
  cases t <;> simp only [IndexArrayType.size] <;> omega

theorem expandIndexedQuads_iff : (∃ u, expandIndexedQuads src (u32 (6 * src.length) / 4) re ri = some u ∧
      Draws u (u32 (6 * src.length) / 4) ((segments re ri src).flatMap quadsOf)) ↔
      (6 * src.length < 0x100000000 ∧ src.length % 2 = 0) ∧ ∀ v ∈ (segments re ri src).flatten,
        (∃ u ∈ (segments re ri src).flatMap quadsOf, u ≤ v) ∧ ∃ u ∈ (segments re ri src).flatMap quadsOf, v ≤ u := by
  have hout := out_foldl_quadStep re ri src .start
  have hfit := quads_fit_iff (t := t) (n := src.length)
  rw [← hfit, ← and_iff_left hout (a := ¬_)]
  refine draws_iff _ (minMax_foldl_quadStep re ri src _) ?_ (mem_flatten_of_flatMap fun _ _ => mem_quadsOf)
  intro hfits
  have hlt := hfit.mp hfits
  have hsegs := length_flatMap_quadsOf_le (segments re ri src)
  have hflatten := length_flatten_segments_le re ri src
  unfold u32
  omega

/-- The closing index of a loop is written behind the destination. -/
theorem not_draws_lineLoop {u : Upload t} {expands : PrimitiveType → Bool} (hexpands : expands .lineLoop)
    (hu : writeIndexArrayDataToBuffer dstSize src .lineLoop re ri expands = some u) :
    ¬Draws u dstSize indices := by
  intro h
  rw [writeIndexArrayDataToBuffer, hexpands] at hu
  obtain ⟨first, -, rfl⟩ := Option.map_eq_some_iff.mp hu
  exact absurd (h.inside (dstSize, first) (mem_append_right _ (mem_singleton_self _))) (lt_irrefl dstSize)

end Expansion

/-- Expanding the primitives that the host does not have draws the same, into a destination of the size
that is asked for, exactly for the draw calls that are expandable. -/
theorem expansion_draws_iff (src : List (Index t)) (drawMode : PrimitiveType) (restartEnabled : Bool)
    (restartIndex : Nat) (expands : PrimitiveType → Bool) (hmode : isPrimitiveNative drawMode = false)
    (hexpands : expands drawMode = true) (hlength : 3 ≤ src.length) (hcount : src.length < 0x100000000) :
    (∃ u, writeIndexArrayDataToBuffer (getIndexCount drawMode src.length) src drawMode restartEnabled
        restartIndex expands = some u ∧ Draws u (getIndexCount drawMode src.length)
        (reference drawMode restartEnabled restartIndex src)) ↔
      Expandable drawMode restartEnabled restartIndex src := by
  cases drawMode with
  | points | lines | lineStrip | triangles | triangleStrip | quadStrip => cases hmode
  | lineLoop =>
    constructor
    · rintro ⟨u, hu, h⟩
      exact absurd h (not_draws_lineLoop hexpands hu)
    rintro ⟨h, -⟩
    exact h.elim
  | triangleFan | polygon =>
    simp only [writeIndexArrayDataToBuffer, hexpands, getIndexCount, isPrimitiveNative, Bool.not_true,
      Bool.false_eq_true, if_false]
    exact expandIndexedTriangleFan_iff hlength hcount
  | quads =>
    simp only [writeIndexArrayDataToBuffer, hexpands, getIndexCount, isPrimitiveNative, Bool.not_true,
      Bool.false_eq_true, if_false]
    exact expandIndexedQuads_iff

theorem expansion_draws_two_fans :
    ∃ u, writeIndexArrayDataToBuffer (t := .u16) (getIndexCount .triangleFan 8) [0, 3, 1, 2, 9, 0, 1, 3]
        .triangleFan true 9 (fun _ => true) = some u ∧
      Draws u 18 [0, 3, 1, 0, 1, 2, 0, 1, 3] := by
  refine (expansion_draws_iff (t := .u16) [0, 3, 1, 2, 9, 0, 1, 3] .triangleFan true 9 (fun _ => true)
    rfl rfl (by decide) (by decide)).mpr ⟨⟨by decide, by decide⟩, ?_⟩
  intro v hv
  have hle : (segments (t := .u16) true 9 [0, 3, 1, 2, 9, 0, 1, 3]).flatten.all (· ≤ 3) := by decide
  exact ⟨⟨0, by decide, Fin.zero_le v⟩, ⟨3, by decide, of_decide_eq_true (all_eq_true.mp hle v hv)⟩⟩

/-- The fan loses the triangle that begins with the greatest index. -/
theorem expansion_loses_triangle :
    ¬∃ u, writeIndexArrayDataToBuffer (t := .u16) (getIndexCount .triangleFan 4) [0, 0xffff, 1, 2]
        .triangleFan false 0 (fun _ => true) = some u ∧
      Draws u (getIndexCount .triangleFan 4) (reference .triangleFan false 0 [0, 0xffff, 1, 2]) := by
  rintro ⟨u, hu, h⟩
  have hwritten : (writeIndexArrayDataToBuffer (t := .u16) (getIndexCount .triangleFan 4)
      [0, 0xffff, 1, 2] .triangleFan false 0 (fun _ => true)).map Upload.written = some 3 := by decide
  rw [hu] at hwritten
  exact absurd (h.written.symm.trans (Option.some.inj hwritten)) (by decide)

end Rpcsx.Rsx
