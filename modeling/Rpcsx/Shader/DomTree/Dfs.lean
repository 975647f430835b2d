import Mathlib.Data.List.GetD
import Rpcsx.Lib.Dominators
import Rpcsx.Shader.DomTree.Basic

/-!
# The depth-first search of the builder

The work list may hold a block several times, and its `parent` is then the block that pushed it last. The
invariant goes along with the numbers of the blocks that pushed each entry: they grow towards the top of
the list and are all ancestors of the number that was given last. So the parents are those of a
depth-first search (`DfsTree`).
-/

namespace Rpcsx.Shader

open Lib Relation List

variable {B : Type} [DecidableEq B] [Inhabited B]

namespace DomTreeBuilder

variable {s s' : DomTreeBuilder B}

theorem info_setInfo (s : DomTreeBuilder B) (b c : B) (i : NodeInfo B) :
    (s.setInfo b i).info c = if c = b then i else s.info c := by
  by_cases h : c = b
  · subst h
    simp [info, setInfo]
  simp [info, setInfo, h]

@[simp] theorem indexToNode_setInfo (s : DomTreeBuilder B) (b : B) (i : NodeInfo B) :
    (s.setInfo b i).indexToNode = s.indexToNode := rfl

@[simp] theorem node_setInfo (s : DomTreeBuilder B) (b : B) (i : NodeInfo B) (k : Nat) :
    (s.setInfo b i).node k = s.node k := rfl

omit [DecidableEq B] in
/-- The numbers that are given are those of blocks that are there. -/
theorem isSome_of_dfsNum {b : B} (h : (s.info b).dfsNum ≠ 0) : (s.nodeToInfo b).isSome := by
  cases hb : s.nodeToInfo b with
  | none => simp [info, hb] at h
  | some i => rfl

/-! ## One block -/

structure Walked (bb : B) (index : Nat) (ss : List B) (s s' : DomTreeBuilder B) : Prop where
  indexToNode : s'.indexToNode = s.indexToNode
  dfsNum : ∀ b, (s'.info b).dfsNum = (s.info b).dfsNum
  semi : ∀ b, (s'.info b).semi = (s.info b).semi
  label : ∀ b, (s'.info b).label = (s.info b).label
  parent : ∀ b, (s'.info b).parent = if b ∈ ss ∧ (s.info b).dfsNum = 0 then index else (s.info b).parent
  revChildren : ∀ b c, c ∈ (s'.info b).revChildren ↔
    c ∈ (s.info b).revChildren ∨ (c = bb ∧ b ∈ ss ∧ b ≠ bb)

variable {bb : B} {walk : B → List B} {index : Nat} {ss : List B}

theorem walkEdge_spec (index : Nat) (hbb : (s.info bb).dfsNum ≠ 0) (workList : List B) (b : B) :
    ∃ s', walkEdge bb index (s, workList) b = (s', if (s.info b).dfsNum = 0 then b :: workList else workList) ∧
      Walked bb index [b] s s' := by
  have hiff : ((s.nodeToInfo b).isSome ∧ (s.info b).dfsNum ≠ 0) ↔ (s.info b).dfsNum ≠ 0 :=
    ⟨And.right, fun h => ⟨isSome_of_dfsNum h, h⟩⟩
  simp only [walkEdge, hiff]
  by_cases hb : (s.info b).dfsNum = 0
  · have hne : b ≠ bb := by
      rintro rfl
      exact hbb hb
    rw [if_neg (not_not.mpr hb), if_pos hb]
    refine ⟨_, rfl, rfl, fun c => ?_, fun c => ?_, fun c => ?_, fun c => ?_, fun c d => ?_⟩ <;>
      by_cases hc : c = b <;> simp [info_setInfo, hc, hb, hne]
  rw [if_pos hb, if_neg hb]
  by_cases hne : b = bb
  · subst hne
    rw [if_neg (not_not.mpr rfl)]
    refine ⟨s, rfl, rfl, fun c => rfl, fun c => rfl, fun c => rfl, fun c => ?_, fun c d => ?_⟩
    · rw [if_neg]
      rintro ⟨hc, h0⟩
      rw [mem_singleton.mp hc] at h0
      exact hb h0
    simp
  rw [if_pos hne]
  refine ⟨_, rfl, rfl, fun c => ?_, fun c => ?_, fun c => ?_, fun c => ?_, fun c d => ?_⟩ <;>
    by_cases hc : c = b <;> simp [info_setInfo, hc, hb, hne]

theorem Walked.trans {b : B} {s'' : DomTreeBuilder B} (h : Walked bb index [b] s s')
    (h' : Walked bb index ss s' s'') : Walked bb index (b :: ss) s s'' where
  indexToNode := h'.indexToNode.trans h.indexToNode
  dfsNum c := (h'.dfsNum c).trans (h.dfsNum c)
  semi c := (h'.semi c).trans (h.semi c)
  label c := (h'.label c).trans (h.label c)
  parent c := by
    rw [h'.parent, h.parent, h.dfsNum]
    by_cases h0 : (s.info c).dfsNum = 0
    · by_cases hss : c ∈ ss
      · rw [if_pos ⟨hss, h0⟩, if_pos ⟨mem_cons_of_mem b hss, h0⟩]
      rw [if_neg fun h => hss h.1]
      by_cases hc : c = b <;> simp [hc, hss]
    rw [if_neg fun h => h0 h.2, if_neg fun h => h0 h.2, if_neg fun h => h0 h.2]
  revChildren c d := by
    rw [h'.revChildren, h.revChildren]
    simp only [mem_cons]
    tauto

theorem foldl_walkEdge (bb : B) (index : Nat) (ss : List B) (hbb : (s.info bb).dfsNum ≠ 0) (workList : List B) :
    ∃ s', ss.foldl (walkEdge bb index) (s, workList) =
        (s', (ss.filter fun b => decide ((s.info b).dfsNum = 0)).reverse ++ workList) ∧ Walked bb index ss s s' := by
  induction ss generalizing s workList with
  | nil =>
    exact ⟨s, rfl, rfl, fun _ => rfl, fun _ => rfl, fun _ => rfl, fun _ => by simp, fun _ _ => by simp⟩
  | cons b ss ih =>
    obtain ⟨s1, hedge, hwalked⟩ := walkEdge_spec index hbb workList b
    obtain ⟨s2, hfold, hwalked2⟩ := ih (s := s1) (by rw [hwalked.dfsNum]; exact hbb)
      (if (s.info b).dfsNum = 0 then b :: workList else workList)
    refine ⟨s2, ?_, hwalked.trans hwalked2⟩
    rw [foldl_cons, hedge, hfold]
    simp only [hwalked.dfsNum]
    by_cases hb : (s.info b).dfsNum = 0
    · rw [if_pos hb, filter_cons_of_pos (by simpa using hb), reverse_cons, append_assoc]
      rfl
    rw [if_neg hb, filter_cons_of_neg (by simpa using hb)]

structure Numbered (bb : B) (index : Nat) (ss : List B) (s s' : DomTreeBuilder B) : Prop where
  indexToNode : s'.indexToNode = s.indexToNode ++ [bb]
  dfsNum : ∀ b, (s'.info b).dfsNum = if b = bb then index else (s.info b).dfsNum
  semi : ∀ b, (s'.info b).semi = if b = bb then index else (s.info b).semi
  label : ∀ b, (s'.info b).label = if b = bb then bb else (s.info b).label
  parent : ∀ b, (s'.info b).parent =
    if b ∈ ss ∧ (s.info b).dfsNum = 0 ∧ b ≠ bb then index else (s.info b).parent
  revChildren : ∀ b c, c ∈ (s'.info b).revChildren ↔
    c ∈ (s.info b).revChildren ∨ (c = bb ∧ b ∈ ss ∧ b ≠ bb)

/-- A turn of the loop with a block that has no number. -/
theorem dfsLoop_fresh (walk : B → List B) (fuel : Nat) (bb : B) (workList : List B) (n : Nat)
    (hbb : (s.info bb).dfsNum = 0) : ∃ s', Numbered bb (n + 1) (walk bb) s s' ∧
      dfsLoop walk (fuel + 1) s (bb :: workList) n = dfsLoop walk fuel s'
        (((walk bb).filter fun b => decide ((s.info b).dfsNum = 0 ∧ b ≠ bb)).reverse ++ workList) (n + 1) := by
  generalize hs1 : { s.setInfo bb { s.info bb with dfsNum := n + 1, semi := n + 1, label := bb } with
    indexToNode := s.indexToNode ++ [bb] } = s1
  have hinfo (c : B) : s1.info c = if c = bb then
      { s.info bb with dfsNum := n + 1, semi := n + 1, label := bb } else s.info c := by
    rw [← hs1]
    exact info_setInfo s bb c _
  obtain ⟨s2, hfold, hwalked⟩ := foldl_walkEdge (s := s1) bb (n + 1) (walk bb) (by simp [hinfo]) workList
  refine ⟨s2, ⟨?_, fun c => ?_, fun c => ?_, fun c => ?_, fun c => ?_, fun c d => ?_⟩, ?_⟩
  · rw [hwalked.indexToNode, ← hs1]
  · rw [hwalked.dfsNum, hinfo]
    split <;> rfl
  · rw [hwalked.semi, hinfo]
    split <;> rfl
  · rw [hwalked.label, hinfo]
    split <;> rfl
  · rw [hwalked.parent, hinfo]
    by_cases hc : c = bb <;> simp [hc]
  · rw [hwalked.revChildren, hinfo]
    by_cases hc : c = bb <;> simp [hc]
  rw [dfsLoop, if_neg (not_not.mpr hbb)]
  simp only [indexToNode_setInfo]
  rw [hs1, hfold]
  have hfilter : (fun b => decide ((s1.info b).dfsNum = 0)) = fun b => decide ((s.info b).dfsNum = 0 ∧ b ≠ bb) := by
    funext c
    rw [hinfo]
    by_cases hc : c = bb <;> simp [hc]
  rw [hfilter]

/-! ## The loop -/

def par (s : DomTreeBuilder B) (k : Nat) : Nat := (s.info (s.node k)).parent

def Edge (walk : B → List B) (a b : B) : Prop := b ∈ walk a

/-- The search has given the numbers up to `n`, and `stack` is its work list with the number of the block
that pushed each entry. -/
structure Searched (walk : B → List B) (root : B) (s : DomTreeBuilder B) (n : Nat)
    (stack : List (B × Nat)) : Prop where
  pos : 1 ≤ n
  length : s.indexToNode.length = n + 1
  dfsNum_node : ∀ k, 1 ≤ k → k ≤ n → (s.info (s.node k)).dfsNum = k
  dfsNum_le : ∀ b, (s.info b).dfsNum ≤ n
  node_dfsNum : ∀ b, (s.info b).dfsNum ≠ 0 → s.node (s.info b).dfsNum = b
  node_one : s.node 1 = root
  semi_eq : ∀ b, (s.info b).dfsNum ≠ 0 → (s.info b).semi = (s.info b).dfsNum
  label_eq : ∀ b, (s.info b).dfsNum ≠ 0 → (s.info b).label = b
  par_one : s.par 1 = 0
  tree : IsTree n s.par
  par_edge : ∀ v, 1 < v → v ≤ n → s.node v ∈ walk (s.node (s.par v))
  interval : ∀ u v w, Anc s.par u w → u ≤ v → v ≤ w → w ≤ n → Anc s.par u v
  forward : ∀ u v, 1 ≤ u → u < v → v ≤ n → s.node v ∈ walk (s.node u) → Anc s.par u v
  revChildren : ∀ b c, c ∈ (s.info b).revChildren ↔ (s.info c).dfsNum ≠ 0 ∧ b ∈ walk c ∧ c ≠ b
  stack_anc : ∀ x ∈ stack, 1 ≤ x.2 ∧ x.2 ≤ n ∧ Anc s.par x.2 n
  stack_sorted : stack.Pairwise fun x y => y.2 ≤ x.2
  stack_edge : ∀ x ∈ stack, x.1 ∈ walk (s.node x.2)
  pending : ∀ u v, 1 ≤ u → u ≤ n → v ∈ walk (s.node u) → (s.info v).dfsNum ≠ 0 ∨ (v, u) ∈ stack
  last_pusher : ∀ b x, (s.info b).dfsNum = 0 → stack.find? (fun x => decide (x.1 = b)) = some x →
    (s.info b).parent = x.2

namespace Searched

variable {walk : B → List B} {root : B} {n : Nat} {stack : List (B × Nat)}

/-- A block that has its number already is dropped. -/
theorem skip {b : B} {p : Nat} (h : Searched walk root s n ((b, p) :: stack))
    (hb : (s.info b).dfsNum ≠ 0) : Searched walk root s n stack :=
  { h with
    stack_anc := fun x hx => h.stack_anc x (mem_cons_of_mem _ hx)
    stack_sorted := (pairwise_cons.mp h.stack_sorted).2
    stack_edge := fun x hx => h.stack_edge x (mem_cons_of_mem _ hx)
    pending := by
      intro u v h1 hu hv
      obtain hvis | hmem := h.pending u v h1 hu hv
      · exact .inl hvis
      obtain heq | hmem := mem_cons.mp hmem
      · obtain ⟨rfl, -⟩ := Prod.mk.inj heq
        exact .inl hb
      exact .inr hmem
    last_pusher := by
      intro c x hc hx
      apply h.last_pusher c x hc
      rw [find?_cons_of_neg]
      · exact hx
      simp only [decide_eq_true_eq]
      rintro rfl
      exact hb hc }

end Searched

theorem Numbered.node_eq {n : Nat} (h : Numbered bb (n + 1) ss s s')
    (hlen : s.indexToNode.length = n + 1) : (∀ k, k ≤ n → s'.node k = s.node k) ∧ s'.node (n + 1) = bb := by
  unfold node
  rw [h.indexToNode]
  constructor
  · intro k hk
    rw [getD_append _ _ _ _ (by omega)]
  rw [getD_append_right _ _ _ _ (by omega), hlen, Nat.sub_self]
  rfl

def pushed (s : DomTreeBuilder B) (walk : B → List B) (bb : B) (index : Nat) : List (B × Nat) :=
  ((walk bb).filter fun b => decide ((s.info b).dfsNum = 0 ∧ b ≠ bb)).reverse.map fun b => (b, index)

theorem mem_pushed {x : B × Nat} : x ∈ s.pushed walk bb index ↔
      x.1 ∈ walk bb ∧ (s.info x.1).dfsNum = 0 ∧ x.1 ≠ bb ∧ x.2 = index := by
  obtain ⟨b, k⟩ := x
  simp only [pushed, List.mem_map, mem_reverse, mem_filter, decide_eq_true_eq, Prod.mk.injEq]
  constructor
  · rintro ⟨c, ⟨h1, h2, h3⟩, rfl, rfl⟩
    exact ⟨h1, h2, h3, rfl⟩
  rintro ⟨h1, h2, h3, rfl⟩
  exact ⟨b, ⟨h1, h2, h3⟩, rfl, rfl⟩

theorem length_pushed_le (walk : B → List B) (bb : B) (index : Nat) :
    (s.pushed walk bb index).length ≤ (walk bb).length := by
  rw [pushed, length_map, length_reverse]
  exact length_filter_le _ _

namespace Searched

variable {walk : B → List B} {root : B} {n : Nat} {stack : List (B × Nat)}

section

variable {bb : B} {p : Nat} (h : Searched walk root s n ((bb, p) :: stack)) (hbb : (s.info bb).dfsNum = 0)
  (hnew : Numbered bb (n + 1) (walk bb) s s')

include h hnew

/-- The tree so far stays. -/
theorem visit_par {k : Nat} (h1 : 1 ≤ k) (hk : k ≤ n) : s'.par k = s.par k := by
  have := h.dfsNum_node k h1 hk
  rw [par, par, (hnew.node_eq h.length).1 k hk, hnew.parent, if_neg]
  rintro ⟨-, h0, -⟩
  omega

include hbb

/-- The block that pushed it last is the parent of the new block. -/
theorem visit_parent : s'.par (n + 1) = p := by
  rw [par, (hnew.node_eq h.length).2, hnew.parent, if_neg fun h => h.2.2 rfl]
  exact h.last_pusher bb (bb, p) hbb (by simp)

theorem visit_tree : IsTree (n + 1) s'.par := by
  obtain ⟨hp1, hpn, -⟩ := h.stack_anc (bb, p) mem_cons_self
  intro v h1 hv
  obtain rfl | hv := hv.eq_or_lt
  · rw [h.visit_parent hbb hnew]
    omega
  rw [h.visit_par hnew (by omega) (by omega)]
  exact h.tree v h1 (by omega)

theorem visit_anc {u v : Nat} (hv : v ≤ n) : Anc s'.par u v ↔ Anc s.par u v := by
  constructor
  · intro ha
    exact ha.congr (fun k h1 hk => h.visit_tree hbb hnew k h1 (by omega)) hv fun k h1 hk =>
      (h.visit_par hnew (by omega) hk).symm
  intro ha
  exact ha.congr h.tree hv fun k h1 hk => h.visit_par hnew (by omega) hk

theorem visit_anc_last {u : Nat} (hu : Anc s.par u p) : Anc s'.par u (n + 1) := by
  obtain ⟨hp1, hpn, -⟩ := h.stack_anc (bb, p) mem_cons_self
  refine .up (by omega) ?_
  rw [h.visit_parent hbb hnew]
  exact (h.visit_anc hbb hnew hpn).mpr hu

omit hbb hnew in
theorem visit_stack {x : B × Nat} (hx : x ∈ stack) : 1 ≤ x.2 ∧ x.2 ≤ n ∧ Anc s.par x.2 p := by
  obtain ⟨h1, hn, ha⟩ := h.stack_anc x (mem_cons_of_mem _ hx)
  exact ⟨h1, hn, ha.of_le (h.stack_anc (bb, p) mem_cons_self).2.2 h.tree le_rfl
    ((pairwise_cons.mp h.stack_sorted).1 x hx)⟩

theorem visit_dfsNum_node (k : Nat) (h1 : 1 ≤ k) (hk : k ≤ n + 1) : (s'.info (s'.node k)).dfsNum = k := by
  obtain ⟨hnode, hlast⟩ := hnew.node_eq h.length
  obtain rfl | hk := hk.eq_or_lt
  · rw [hlast, hnew.dfsNum, if_pos rfl]
  have hold := h.dfsNum_node k h1 (by omega)
  have hne : s.node k ≠ bb := by
    intro heq
    rw [heq] at hold
    omega
  rw [hnode k (by omega), hnew.dfsNum, if_neg hne]
  exact hold

theorem visit_par_edge (v : Nat) (h1 : 1 < v) (hv : v ≤ n + 1) : s'.node v ∈ walk (s'.node (s'.par v)) := by
  obtain ⟨hnode, hlast⟩ := hnew.node_eq h.length
  obtain rfl | hv := hv.eq_or_lt
  · rw [h.visit_parent hbb hnew, hlast, hnode p (h.stack_anc (bb, p) mem_cons_self).2.1]
    exact h.stack_edge (bb, p) mem_cons_self
  have := h.tree v h1 (by omega)
  rw [h.visit_par hnew (by omega) (by omega), hnode v (by omega), hnode _ (by omega)]
  exact h.par_edge v h1 (by omega)

theorem visit_interval (u v w : Nat) (ha : Anc s'.par u w) (huv : u ≤ v) (hvw : v ≤ w) (hw : w ≤ n + 1) :
    Anc s'.par u v := by
  obtain rfl | hw := hw.eq_or_lt
  · obtain rfl | hvw := hvw.eq_or_lt
    · exact ha
    obtain ⟨-, hpn, hpanc⟩ := h.stack_anc (bb, p) mem_cons_self
    obtain ⟨-, hup⟩ := ha.par_of_ne (by omega)
    rw [h.visit_parent hbb hnew, h.visit_anc hbb hnew hpn] at hup
    rw [h.visit_anc hbb hnew (by omega)]
    exact h.interval u v n (hup.trans hpanc) huv (by omega) le_rfl
  rw [h.visit_anc hbb hnew (by omega)] at ha ⊢
  exact h.interval u v w ha huv hvw (by omega)

theorem visit_forward (u v : Nat) (h1 : 1 ≤ u) (huv : u < v) (hv : v ≤ n + 1)
    (hedge : s'.node v ∈ walk (s'.node u)) : Anc s'.par u v := by
  obtain ⟨hnode, hlast⟩ := hnew.node_eq h.length
  obtain rfl | hv := hv.eq_or_lt
  · rw [hlast, hnode u (by omega)] at hedge
    apply h.visit_anc_last hbb hnew
    obtain hvis | hmem := h.pending u bb h1 (by omega) hedge
    · exact absurd hbb hvis
    obtain heq | hmem := mem_cons.mp hmem
    · obtain rfl : u = p := (Prod.mk.inj heq).2
      exact .refl
    exact (h.visit_stack hmem).2.2
  rw [hnode v (by omega), hnode u (by omega)] at hedge
  rw [h.visit_anc hbb hnew (by omega)]
  exact h.forward u v h1 huv (by omega) hedge

theorem visit_revChildren (b c : B) :
    c ∈ (s'.info b).revChildren ↔ (s'.info c).dfsNum ≠ 0 ∧ b ∈ walk c ∧ c ≠ b := by
  rw [hnew.revChildren, h.revChildren, hnew.dfsNum]
  by_cases hc : c = bb
  · subst hc
    rw [if_pos rfl]
    constructor
    · rintro (⟨h0, -⟩ | ⟨-, hmem, hbc⟩)
      · exact absurd hbb h0
      · exact ⟨by omega, hmem, Ne.symm hbc⟩
    rintro ⟨-, hmem, hcb⟩
    exact .inr ⟨rfl, hmem, Ne.symm hcb⟩
  rw [if_neg hc]
  constructor
  · rintro (hrev | ⟨hcb, -⟩)
    · exact hrev
    · exact absurd hcb hc
  exact .inl

omit hbb in
theorem visit_pending (u : Nat) (v : B) (h1 : 1 ≤ u) (hu : u ≤ n + 1) (hv : v ∈ walk (s'.node u)) :
    (s'.info v).dfsNum ≠ 0 ∨ (v, u) ∈ s.pushed walk bb (n + 1) ++ stack := by
  obtain ⟨hnode, hlast⟩ := hnew.node_eq h.length
  rw [hnew.dfsNum]
  by_cases hvbb : v = bb
  · exact .inl (by rw [if_pos hvbb]; omega)
  rw [if_neg hvbb]
  obtain rfl | hu := hu.eq_or_lt
  · rw [hlast] at hv
    refine or_iff_not_imp_left.mpr fun h0 => mem_append_left _ ?_
    exact mem_pushed.mpr ⟨hv, not_ne_iff.mp h0, hvbb, rfl⟩
  rw [hnode u (by omega)] at hv
  obtain hvis | hmem := h.pending u v h1 (by omega) hv
  · exact .inl hvis
  obtain heq | hmem := mem_cons.mp hmem
  · exact absurd (Prod.mk.inj heq).1 hvbb
  exact .inr (mem_append_right _ hmem)

omit hbb in
theorem visit_last_pusher (b : B) (x : B × Nat) (hb : (s'.info b).dfsNum = 0)
    (hx : (s.pushed walk bb (n + 1) ++ stack).find? (fun x => decide (x.1 = b)) = some x) :
    (s'.info b).parent = x.2 := by
  have hbbb : b ≠ bb := by
    rintro rfl
    rw [hnew.dfsNum, if_pos rfl] at hb
    omega
  rw [hnew.dfsNum, if_neg hbbb] at hb
  rw [hnew.parent]
  rw [find?_append] at hx
  by_cases hmem : b ∈ walk bb
  · rw [if_pos ⟨hmem, hb, hbbb⟩]
    cases hfind : (s.pushed walk bb (n + 1)).find? fun x => decide (x.1 = b) with
    | none =>
      have := find?_eq_none.mp hfind (b, n + 1) (mem_pushed.mpr ⟨hmem, hb, hbbb, rfl⟩)
      simp at this
    | some y =>
      rw [hfind, Option.some_or] at hx
      cases hx
      exact (mem_pushed.mp (mem_of_find?_eq_some hfind)).2.2.2.symm
  rw [if_neg fun h => hmem h.1]
  have hnone : (s.pushed walk bb (n + 1)).find? (fun x => decide (x.1 = b)) = none := by
    rw [find?_eq_none]
    intro y hy hyb
    rw [decide_eq_true_eq] at hyb
    exact hmem (hyb ▸ (mem_pushed.mp hy).1)
  rw [hnone, Option.none_or] at hx
  apply h.last_pusher b x hb
  rw [find?_cons_of_neg]
  · exact hx
  · simpa using Ne.symm hbbb

/-- A block that has no number gets the next one, below the block that pushed it last. -/
theorem visit : Searched walk root s' (n + 1) (s.pushed walk bb (n + 1) ++ stack) := by
  obtain ⟨hnode, hlast⟩ := hnew.node_eq h.length
  have hother {b : B} (hb : b ≠ bb) (h0 : (s'.info b).dfsNum ≠ 0) :
      (s'.info b).dfsNum = (s.info b).dfsNum ∧ (s.info b).dfsNum ≠ 0 := by
    have heq := (hnew.dfsNum b).trans (if_neg hb)
    exact ⟨heq, heq ▸ h0⟩
  refine ⟨by omega, by rw [hnew.indexToNode, length_append, h.length]; rfl, h.visit_dfsNum_node hbb hnew, ?_, ?_, ?_,
    ?_, ?_, by rw [h.visit_par hnew le_rfl h.pos]; exact h.par_one, h.visit_tree hbb hnew, h.visit_par_edge hbb hnew,
    h.visit_interval hbb hnew, h.visit_forward hbb hnew, h.visit_revChildren hbb hnew, ?_, ?_, ?_,
    h.visit_pending hnew, h.visit_last_pusher hnew⟩
  · intro b
    rw [hnew.dfsNum]
    have := h.dfsNum_le b
    split <;> omega
  · intro b hb
    by_cases hbbb : b = bb
    · rw [hnew.dfsNum, if_pos hbbb, hlast, hbbb]
    obtain ⟨heq, h0⟩ := hother hbbb hb
    rw [heq, hnode _ (h.dfsNum_le b)]
    exact h.node_dfsNum b h0
  · rw [hnode 1 h.pos]
    exact h.node_one
  · intro b hb
    by_cases hbbb : b = bb
    · rw [hnew.dfsNum, hnew.semi, if_pos hbbb, if_pos hbbb]
    obtain ⟨heq, h0⟩ := hother hbbb hb
    rw [heq, hnew.semi, if_neg hbbb]
    exact h.semi_eq b h0
  · intro b hb
    rw [hnew.label]
    split
    · next hbbb => exact hbbb.symm
    · next hbbb => exact h.label_eq b (hother hbbb hb).2
  · intro x hx
    obtain hx | hx := mem_append.mp hx
    · rw [(mem_pushed.mp hx).2.2.2]
      exact ⟨by omega, le_rfl, .refl⟩
    obtain ⟨h1, hxn, ha⟩ := h.visit_stack hx
    exact ⟨h1, by omega, h.visit_anc_last hbb hnew ha⟩
  · refine pairwise_append.mpr ⟨?_, (pairwise_cons.mp h.stack_sorted).2, fun x hx y hy => ?_⟩
    · exact pairwise_of_forall_mem_list fun x hx y hy =>
        ((mem_pushed.mp hy).2.2.2.trans (mem_pushed.mp hx).2.2.2.symm).le
    rw [(mem_pushed.mp hx).2.2.2]
    have := (h.visit_stack hy).2.1
    omega
  intro x hx
  obtain hx | hx := mem_append.mp hx
  · obtain ⟨hmem, -, -, hk⟩ := mem_pushed.mp hx
    rw [hk, hlast]
    exact hmem
  rw [hnode x.2 (h.visit_stack hx).2.1]
  exact h.stack_edge x (mem_cons_of_mem _ hx)

end

/-- The first block has number 1 and no parent. -/
theorem start (hnew : Numbered root 1 (walk root) {} s) :
    Searched walk root s 1 (({} : DomTreeBuilder B).pushed walk root 1) := by
  obtain ⟨-, hnode⟩ := hnew.node_eq rfl
  have hnum (b : B) : (s.info b).dfsNum = if b = root then 1 else 0 := hnew.dfsNum b
  have hroot {b : B} (hb : (s.info b).dfsNum ≠ 0) : b = root := by
    rw [hnum] at hb
    by_contra hne
    exact hb (if_neg hne)
  have hanc {u v : Nat} (h : Anc s.par u v) (hv : v ≤ 1) : u = v := by
    cases h with
    | refl => rfl
    | up hlt _ => omega
  refine ⟨le_rfl, by rw [hnew.indexToNode]; rfl, ?_, fun b => by rw [hnum]; split <;> omega, ?_, hnode, ?_, ?_, ?_,
    fun v h1 hv => by omega, fun v h1 hv => by omega, ?_, fun u v h1 huv hv => by omega, ?_, ?_, ?_, ?_, ?_, ?_⟩
  · intro k h1 hk
    obtain rfl : k = 1 := by omega
    rw [hnode, hnum, if_pos rfl]
  · intro b hb
    obtain rfl := hroot hb
    rw [hnum, if_pos rfl]
    exact hnode
  · intro b hb
    obtain rfl := hroot hb
    rw [hnew.semi, hnum, if_pos rfl, if_pos rfl]
  · intro b hb
    obtain rfl := hroot hb
    rw [hnew.label, if_pos rfl]
  · rw [par, hnode, hnew.parent, if_neg fun h => h.2.2 rfl]
    rfl
  · intro u v w ha huv hvw hw
    obtain rfl := hanc ha hw
    obtain rfl : u = v := by omega
    exact .refl
  · intro b c
    rw [hnew.revChildren]
    constructor
    · rintro (hrev | ⟨rfl, hmem, hne⟩)
      · cases hrev
      rw [hnum, if_pos rfl]
      exact ⟨Nat.one_ne_zero, hmem, Ne.symm hne⟩
    rintro ⟨hc, hmem, hne⟩
    obtain rfl := hroot hc
    exact .inr ⟨rfl, hmem, Ne.symm hne⟩
  · intro x hx
    rw [(mem_pushed.mp hx).2.2.2]
    exact ⟨le_rfl, le_rfl, .refl⟩
  · exact pairwise_of_forall_mem_list fun x hx y hy =>
      ((mem_pushed.mp hy).2.2.2.trans (mem_pushed.mp hx).2.2.2.symm).le
  · intro x hx
    obtain ⟨hmem, -, -, hk⟩ := mem_pushed.mp hx
    rw [hk, hnode]
    exact hmem
  · intro u v h1 hu hv
    obtain rfl : u = 1 := by omega
    rw [hnode] at hv
    by_cases hvr : v = root
    · left
      rw [hnum, if_pos hvr]
      exact Nat.one_ne_zero
    exact .inr (mem_pushed.mpr ⟨hv, rfl, hvr, rfl⟩)
  intro b x hb hx
  have hmem := mem_of_find?_eq_some hx
  have hxb := find?_some hx
  rw [decide_eq_true_eq] at hxb
  obtain ⟨hedge, -, hne, hk⟩ := mem_pushed.mp hmem
  rw [hxb] at hedge hne
  rw [hnew.parent, if_pos ⟨hedge, rfl, hne⟩, hk]

/-- Every block that has a number can be reached. -/
theorem reaches_node (h : Searched walk root s n stack) {k : Nat} (h1 : 1 ≤ k) (hk : k ≤ n) :
    ReflTransGen (Edge walk) root (s.node k) := by
  induction k using Nat.strong_induction_on with
  | _ k ih =>
    by_cases hk1 : k = 1
    · rw [hk1, h.node_one]
    have hpar := h.tree k (by omega) hk
    exact (ih (s.par k) hpar.2 hpar.1 (by omega)).tail (h.par_edge k (by omega) hk)

end Searched

def unseen (nodes : List B) (walk : B → List B) (s : DomTreeBuilder B) : Nat :=
  ((nodes.filter fun b => decide ((s.info b).dfsNum = 0)).map fun b => (walk b).length).sum

omit [DecidableEq B] in
theorem unseen_cons (b : B) (nodes : List B) (walk : B → List B) (s : DomTreeBuilder B) : unseen (b :: nodes) walk s =
      (if (s.info b).dfsNum = 0 then (walk b).length else 0) + unseen nodes walk s := by
  unfold unseen
  by_cases hb : (s.info b).dfsNum = 0
  · rw [filter_cons_of_pos (by simpa using hb), if_pos hb, map_cons, sum_cons]
  · rw [filter_cons_of_neg (by simpa using hb), if_neg hb, Nat.zero_add]

theorem Numbered.unseen_le {n : Nat} {nodes : List B} (h : Numbered bb (n + 1) (walk bb) s s')
    (hbb : (s.info bb).dfsNum = 0) (hmem : bb ∈ nodes) :
    unseen nodes walk s' + (walk bb).length ≤ unseen nodes walk s := by
  have hnew : (if (s'.info bb).dfsNum = 0 then (walk bb).length else 0) = 0 := by
    rw [h.dfsNum, if_pos rfl]
    exact if_neg (Nat.succ_ne_zero n)
  have hold {b : B} (hb : b ≠ bb) : (s'.info b).dfsNum = (s.info b).dfsNum := by rw [h.dfsNum, if_neg hb]
  have hle (l : List B) : unseen l walk s' ≤ unseen l walk s := by
    induction l with
    | nil => exact le_rfl
    | cons b l ih =>
      rw [unseen_cons, unseen_cons]
      by_cases hb : b = bb
      · rw [hb, hnew]
        omega
      rw [hold hb]
      omega
  induction nodes with
  | nil => cases hmem
  | cons b l ih =>
    rw [unseen_cons, unseen_cons]
    by_cases hb : b = bb
    · have := hle l
      rw [hb, hnew, if_pos hbb]
      omega
    have := ih ((mem_cons.mp hmem).resolve_left (Ne.symm hb))
    rw [hold hb]
    omega

section Run

variable {walk : B → List B} {root : B} {nodes : List B}
  (hnodes : ∀ b, ReflTransGen (Edge walk) root b → b ∈ nodes)

include hnodes

/-- **The loop** comes to an end with an empty work list. -/
theorem Searched.run {n : Nat} {stack : List (B × Nat)} (h : Searched walk root s n stack)
    (fuel : Nat) (hfuel : stack.length + unseen nodes walk s < fuel) :
    ∃ s' n', dfsLoop walk fuel s (stack.map Prod.fst) n = some s' ∧ Searched walk root s' n' [] := by
  induction fuel generalizing s n stack with
  | zero => omega
  | succ fuel ih =>
    match stack with
    | [] => exact ⟨s, n, rfl, h⟩
    | (bb, p) :: stack =>
      rw [length_cons] at hfuel
      by_cases hbb : (s.info bb).dfsNum = 0
      · obtain ⟨s1, hnew, hloop⟩ := dfsLoop_fresh walk fuel _ (stack.map Prod.fst) n hbb
        have hmem : bb ∈ nodes := by
          obtain ⟨hp1, hpn, -⟩ := h.stack_anc (bb, p) mem_cons_self
          exact hnodes bb ((h.reaches_node hp1 hpn).tail (h.stack_edge (bb, p) mem_cons_self))
        have hunseen := hnew.unseen_le hbb hmem
        have hpushed := s.length_pushed_le walk bb (n + 1)
        obtain ⟨s', n', hrun, hdone⟩ := ih (h.visit hbb hnew) (by
          rw [length_append]
          omega)
        refine ⟨s', n', ?_, hdone⟩
        rw [map_cons, hloop, ← hrun, map_append, pushed, List.map_map]
        congr 2
        exact (List.map_id _).symm
      obtain ⟨s', n', hrun, hdone⟩ := ih (h.skip hbb) (by omega)
      refine ⟨s', n', ?_, hdone⟩
      rw [map_cons, dfsLoop, if_pos hbb]
      exact hrun

theorem runDFS_spec {fuel : Nat} (hfuel : 1 + unseen nodes walk {} < fuel) :
    ∃ s n, runDFS walk fuel root = some s ∧ Searched walk root s n [] := by
  obtain ⟨fuel, rfl⟩ : ∃ f, fuel = f + 1 := ⟨fuel - 1, by omega⟩
  obtain ⟨s, hnew, hloop⟩ := dfsLoop_fresh (s := {}) walk fuel root [] 0 rfl
  have hunseen := Numbered.unseen_le hnew rfl (hnodes root .refl)
  have hpushed := ({} : DomTreeBuilder B).length_pushed_le walk root 1
  obtain ⟨s', n', hrun, hdone⟩ := (Searched.start hnew).run hnodes fuel (by omega)
  refine ⟨s', n', ?_, hdone⟩
  rw [runDFS, hloop, ← hrun, pushed, List.map_map, append_nil]
  congr 1
  exact (List.map_id _).symm

end Run

end DomTreeBuilder

end Rpcsx.Shader
