import Rpcsx.Shader.DomTree.Dfs

/-!
# Semidominators and immediate dominators

The second loop of the builder goes through the numbers downwards. `Linked` says what it keeps: the
numbers above have their semidominators, and the path compression has only skipped numbers above, with
labels of least semidominator. The third loop goes upwards, and finds the immediate dominator from those
of smaller numbers.
-/

namespace Rpcsx.Shader

open Lib Relation List Option DomTreeBuilder

variable {B : Type} [Inhabited B]

namespace DomTreeBuilder

/-! ## What the loops leave alone -/

structure SameButImmDom (s s' : DomTreeBuilder B) : Prop where
  indexToNode : s'.indexToNode = s.indexToNode
  dfsNum : ∀ b, (s'.info b).dfsNum = (s.info b).dfsNum
  parent : ∀ b, (s'.info b).parent = (s.info b).parent
  semi : ∀ b, (s'.info b).semi = (s.info b).semi
  label : ∀ b, (s'.info b).label = (s.info b).label
  revChildren : ∀ b, (s'.info b).revChildren = (s.info b).revChildren

theorem sameButImmDom_refl (s : DomTreeBuilder B) : SameButImmDom s s :=
  ⟨rfl, fun _ => rfl, fun _ => rfl, fun _ => rfl, fun _ => rfl, fun _ => rfl⟩

variable {s s' : DomTreeBuilder B}

theorem SameButImmDom.trans {s'' : DomTreeBuilder B} (h : SameButImmDom s s') (h' : SameButImmDom s' s'') :
    SameButImmDom s s'' where
  indexToNode := h'.indexToNode.trans h.indexToNode
  dfsNum b := (h'.dfsNum b).trans (h.dfsNum b)
  parent b := (h'.parent b).trans (h.parent b)
  semi b := (h'.semi b).trans (h.semi b)
  label b := (h'.label b).trans (h.label b)
  revChildren b := (h'.revChildren b).trans (h.revChildren b)

theorem SameButImmDom.node_eq (h : SameButImmDom s s') (k : Nat) : s'.node k = s.node k := by
  rw [node, node, h.indexToNode]

theorem SameButImmDom.par_eq (h : SameButImmDom s s') : s'.par = s.par := by
  funext k
  rw [par, par, h.node_eq, h.parent]

structure Kept (s₀ s : DomTreeBuilder B) : Prop where
  indexToNode : s.indexToNode = s₀.indexToNode
  dfsNum : ∀ b, (s.info b).dfsNum = (s₀.info b).dfsNum
  immDom : ∀ b, (s.info b).immDom = (s₀.info b).immDom
  revChildren : ∀ b, (s.info b).revChildren = (s₀.info b).revChildren

theorem Kept.node_eq {s₀ : DomTreeBuilder B} (h : Kept s₀ s) (k : Nat) : s.node k = s₀.node k := by
  rw [node, node, h.indexToNode]

def NumEdge (walk : B → List B) (s : DomTreeBuilder B) (n i j : Nat) : Prop :=
  (1 ≤ i ∧ i ≤ n) ∧ (1 ≤ j ∧ j ≤ n) ∧ s.node j ∈ walk (s.node i)

def lab (s : DomTreeBuilder B) (k : Nat) : Nat := (s.info (s.info (s.node k)).label).dfsNum

def sem (s : DomTreeBuilder B) (k : Nat) : Nat := (s.info (s.node k)).semi

variable [DecidableEq B] {walk : B → List B} {root : B} {n : Nat} {s₀ s : DomTreeBuilder B}

variable {stack : List (B × Nat)}

theorem Searched.dfsTree (h : Searched walk root s n stack) : DfsTree n (NumEdge walk s n) s.par where
  tree := h.tree
  par_edge v h1 hv := by
    have hpar := h.tree v h1 hv
    exact ⟨⟨hpar.1, by omega⟩, ⟨by omega, hv⟩, h.par_edge v h1 hv⟩
  inside _ _ he := ⟨he.1.1, he.1.2, he.2.1.1, he.2.1.2⟩
  interval := h.interval
  forward u v he huv := h.forward u v he.1.1 huv he.2.1.2 he.2.2

theorem Searched.of_sameButImmDom (h : Searched walk root s n stack) (hsame : SameButImmDom s s') :
    Searched walk root s' n stack := by
  constructor
  all_goals try simp only [hsame.indexToNode, hsame.dfsNum, hsame.parent, hsame.semi, hsame.label,
      hsame.revChildren, hsame.node_eq, hsame.par_eq]
  · exact h.pos
  · exact h.length
  · exact h.dfsNum_node
  · exact h.dfsNum_le
  · exact h.node_dfsNum
  · exact h.node_one
  · exact h.semi_eq
  · exact h.label_eq
  · exact h.par_one
  · exact h.tree
  · exact h.par_edge
  · exact h.interval
  · exact h.forward
  · exact h.revChildren
  · exact h.stack_anc
  · exact h.stack_sorted
  · exact h.stack_edge
  · exact h.pending
  · exact h.last_pusher

theorem Searched.node_inj (h : Searched walk root s n stack) {j k : Nat} (hj1 : 1 ≤ j) (hj : j ≤ n) (hk1 : 1 ≤ k)
    (hk : k ≤ n) : s.node j = s.node k ↔ j = k := by
  constructor
  · intro heq
    rw [← h.dfsNum_node j hj1 hj, ← h.dfsNum_node k hk1 hk, heq]
  rintro rfl
  rfl

/-! ## The first loop -/

theorem sameButImmDom_setInfo (s : DomTreeBuilder B) (b immDom : B) :
    SameButImmDom s (s.setInfo b { s.info b with immDom }) := by
  refine ⟨rfl, fun c => ?_, fun c => ?_, fun c => ?_, fun c => ?_, fun c => ?_⟩ <;>
    by_cases hc : c = b <;> simp [info_setInfo, hc]

theorem foldl_initImmDom (s : DomTreeBuilder B) (l : List Nat) : SameButImmDom s (l.foldl initImmDom s) ∧
    ∀ k ∈ l, ((l.foldl initImmDom s).info (s.node k)).immDom = s.node (s.par k) := by
  induction l using List.reverseRecOn with
  | nil => exact ⟨sameButImmDom_refl s, fun k hk => nomatch hk⟩
  | append_singleton l i ih =>
    obtain ⟨hsame, himm⟩ := ih
    rw [foldl_append, foldl_cons, foldl_nil]
    generalize l.foldl initImmDom s = s1 at hsame himm
    refine ⟨hsame.trans (sameButImmDom_setInfo s1 _ _), fun k hk => ?_⟩
    rw [initImmDom, info_setInfo, hsame.node_eq]
    by_cases hki : s.node k = s.node i
    · rw [if_pos hki, hsame.parent, hsame.node_eq, par, hki]
    rw [if_neg hki]
    apply himm
    obtain hk | hk := mem_append.mp hk
    · exact hk
    rw [mem_singleton.mp hk] at hki
    exact absurd rfl hki

/-! ## The second loop -/

/-- The numbers above `i` have their semidominators. `s₀` is the state before the loop. -/
structure Linked (walk : B → List B) (n : Nat) (s₀ s : DomTreeBuilder B) (i : Nat) : Prop
    extends Kept s₀ s where
  label_eq : ∀ k, 1 ≤ k → k ≤ n → (s.info (s.node k)).label = s.node (s.lab k)
  par_low : ∀ k, 1 ≤ k → k ≤ i → s.par k = s₀.par k
  lab_low : ∀ k, 1 ≤ k → k ≤ i → s.lab k = k
  sem_low : ∀ k, 1 ≤ k → k < i → s.sem k = k
  sem_high : ∀ k, i < k → k ≤ n → IsSemi (NumEdge walk s₀ n) k (s.sem k)
  par_high : ∀ k, i < k → k ≤ n → Anc s₀.par (s.par k) k ∧ s.par k < k
  lab_high : ∀ k, i < k → k ≤ n → Anc s₀.par (s.lab k) k ∧ s.par k < s.lab k
  least : ∀ k u, i < k → k ≤ n → Anc s₀.par u k → s.par k < u → i < u ∧ s.sem (s.lab k) ≤ s.sem u

def Above (s : DomTreeBuilder B) (n p c : Nat) : Prop := s.par c = p ∧ p < c ∧ c ≤ n

structure Updated (s s' : DomTreeBuilder B) (c : Nat) (i : NodeInfo B) : Prop where
  par : ∀ k, 1 ≤ k → k ≤ n → s'.par k = if k = c then i.parent else s.par k
  sem : ∀ k, 1 ≤ k → k ≤ n → s'.sem k = if k = c then i.semi else s.sem k
  lab : ∀ k, 1 ≤ k → k ≤ n → s'.lab k = if k = c then (s.info i.label).dfsNum else s.lab k
  label : ∀ k, 1 ≤ k → k ≤ n →
    (s'.info (s'.node k)).label = if k = c then i.label else (s.info (s.node k)).label

theorem Kept.update (hkept : Kept s₀ s) (h₀ : Searched walk root s₀ n []) {c : Nat} (hc1 : 1 ≤ c)
    (hc : c ≤ n) {i : NodeInfo B} (hnum : i.dfsNum = (s.info (s.node c)).dfsNum)
    (himm : i.immDom = (s.info (s.node c)).immDom) (hrev : i.revChildren = (s.info (s.node c)).revChildren) :
    Kept s₀ (s.setInfo (s.node c) i) ∧ Updated (n := n) s (s.setInfo (s.node c) i) c i := by
  have hinfo {k : Nat} (hk1 : 1 ≤ k) (hk : k ≤ n) :
      (s.setInfo (s.node c) i).info (s.node k) = if k = c then i else s.info (s.node k) := by
    rw [info_setInfo, hkept.node_eq, hkept.node_eq]
    exact if_congr (h₀.node_inj hk1 hk hc1 hc) rfl rfl
  have hdfs (b : B) : ((s.setInfo (s.node c) i).info b).dfsNum = (s.info b).dfsNum := by
    rw [info_setInfo]
    split
    · next heq => rw [heq, hnum]
    · rfl
  constructor
  · refine ⟨hkept.indexToNode, fun b => (hdfs b).trans (hkept.dfsNum b), fun b => ?_, fun b => ?_⟩
    · rw [← hkept.immDom b, info_setInfo]
      split
      · next heq => rw [heq, himm]
      · rfl
    rw [← hkept.revChildren b, info_setInfo]
    split
    · next heq => rw [heq, hrev]
    · rfl
  refine ⟨fun k hk1 hk => ?_, fun k hk1 hk => ?_, fun k hk1 hk => ?_, fun k hk1 hk => ?_⟩
  · rw [par, node_setInfo, hinfo hk1 hk]
    split <;> rfl
  · rw [sem, node_setInfo, hinfo hk1 hk]
    split <;> rfl
  · rw [lab, node_setInfo, hinfo hk1 hk, hdfs]
    split <;> rfl
  rw [node_setInfo, hinfo hk1 hk]
  split <;> rfl

namespace Linked

variable {i : Nat}

section

variable (h : Linked walk n s₀ s i) (h₀ : Searched walk root s₀ n [])

include h h₀

theorem lab_bounds {k : Nat} (hk1 : 1 ≤ k) (hk : k ≤ n) : 1 ≤ s.lab k ∧ s.lab k ≤ n := by
  obtain hki | hik := le_or_gt k i
  · rw [h.lab_low k hk1 hki]
    exact ⟨hk1, hk⟩
  obtain ⟨hanc, -⟩ := h.lab_high k hik hk
  exact ⟨hanc.pos h₀.tree hk1 hk, (hanc.le h₀.tree hk).trans hk⟩

/-- The first loop of `eval` goes up from `v` to a number whose parent is not linked. -/
theorem climb_spec (hi : 1 ≤ i) (fuel : Nat) {v : Nat} (acc : List Nat) (hiv : i < s.par v) (hv1 : 1 ≤ v) (hv : v ≤ n)
    (hfuel : v ≤ fuel) (hacc : (v :: acc).IsChain (s.Above n)) :
    ∃ p l, s.climb (i + 1) fuel (s.node v) (acc.map s.node) = some (s.node p, l.map s.node) ∧
      i < p ∧ p ≤ n ∧ s.par p ≤ i ∧ (p :: l).IsChain (s.Above n) ∧ l.getLast? = (v :: acc).getLast? := by
  induction fuel generalizing v acc with
  | zero => omega
  | succ fuel ih =>
    have hiv' : i < v := by
      by_contra hle
      rw [h.par_low v hv1 (not_lt.mp hle)] at hiv
      by_cases hv1' : v = 1
      · rw [hv1', h₀.par_one] at hiv
        omega
      have := h₀.tree v (by omega) hv
      omega
    obtain ⟨-, hlt⟩ := h.par_high v hiv' hv
    have hclimb : s.climb (i + 1) (fuel + 1) (s.node v) (acc.map s.node) = if i + 1 ≤ s.par (s.par v) then
          s.climb (i + 1) fuel (s.node (s.par v)) ((v :: acc).map s.node)
        else some (s.node (s.par v), (v :: acc).map s.node) := rfl
    have hchain : (s.par v :: v :: acc).IsChain (s.Above n) := .cons_cons ⟨rfl, hlt, hv⟩ hacc
    rw [hclimb]
    by_cases hlink : i + 1 ≤ s.par (s.par v)
    · rw [if_pos hlink]
      obtain ⟨p, l, hrun, hip, hpn, hpar, hchain, hlast⟩ := ih (v := s.par v) (v :: acc)
        (by omega) (by omega) (by omega) (by omega) hchain
      exact ⟨p, l, hrun, hip, hpn, hpar, hchain, by rw [hlast, getLast?_cons_cons]⟩
    rw [if_neg hlink]
    exact ⟨s.par v, v :: acc, rfl, hiv, by omega, by omega, hchain, rfl⟩

/-- One turn of the second loop of `eval`: `c` skips its parent `p`. -/
theorem skip (hi : 1 ≤ i) {p c l : Nat} (hip : i < p) (hpn : p ≤ n) (hcn : c ≤ n) (hpar : s.par c = p) (hpc : p < c)
    (hl : l = s.lab p ∧ s.sem (s.lab p) < s.sem (s.lab c) ∨ l = s.lab c ∧ s.sem (s.lab c) ≤ s.sem (s.lab p))
    {s' : DomTreeBuilder B} (hkept : Kept s₀ s')
    (hupd : Updated (n := n) s s' c { s.info (s.node c) with parent := s.par p, label := s.node l }) :
    Linked walk n s₀ s' i ∧ s'.par c = s.par p ∧ s'.lab c = l ∧ ∀ k, 1 ≤ k → k ≤ n → s'.sem k = s.sem k := by
  have hic : i < c := by omega
  have hlp := h.lab_bounds h₀ (by omega) hpn
  have hlc := h.lab_bounds h₀ (by omega) hcn
  have hl1 : 1 ≤ l ∧ l ≤ n := by
    obtain ⟨rfl, -⟩ | ⟨rfl, -⟩ := hl
    · exact hlp
    · exact hlc
  have hnode (k : Nat) : s'.node k = s.node k := by rw [hkept.node_eq, h.node_eq]
  have hparc : s'.par c = s.par p := by rw [hupd.par c (by omega) hcn, if_pos rfl]
  have hlabc : s'.lab c = l := by
    rw [hupd.lab c (by omega) hcn, if_pos rfl]
    show (s.info (s.node l)).dfsNum = l
    rw [h.dfsNum, h.node_eq]
    exact h₀.dfsNum_node l hl1.1 hl1.2
  have hpar' {k : Nat} (hk1 : 1 ≤ k) (hk : k ≤ n) (hkc : k ≠ c) : s'.par k = s.par k := by
    rw [hupd.par k hk1 hk, if_neg hkc]
  have hlab' {k : Nat} (hk1 : 1 ≤ k) (hk : k ≤ n) (hkc : k ≠ c) : s'.lab k = s.lab k := by
    rw [hupd.lab k hk1 hk, if_neg hkc]
  have hsem (k : Nat) (hk1 : 1 ≤ k) (hk : k ≤ n) : s'.sem k = s.sem k := by
    rw [hupd.sem k hk1 hk]
    split
    · next heq =>
      rw [heq]
      rfl
    rfl
  obtain ⟨hancp, hltp⟩ := h.par_high p hip hpn
  obtain ⟨hancc, -⟩ := h.par_high c hic hcn
  rw [hpar] at hancc
  refine ⟨?_, hparc, hlabc, hsem⟩
  refine { hkept with
      label_eq := fun k hk1 hk => ?_
      par_low := fun k hk1 hk => by rw [hpar' hk1 (by omega) (by omega)]; exact h.par_low k hk1 hk
      lab_low := fun k hk1 hk => by rw [hlab' hk1 (by omega) (by omega)]; exact h.lab_low k hk1 hk
      sem_low := fun k hk1 hk => by rw [hsem k hk1 (by omega)]; exact h.sem_low k hk1 hk
      sem_high := fun k hik hk => by rw [hsem k (by omega) hk]; exact h.sem_high k hik hk
      par_high := fun k hik hk => ?_
      lab_high := fun k hik hk => ?_
      least := fun k u hik hk hu hlt => ?_ }
  · rw [hupd.label k hk1 hk]
    by_cases hkc : k = c
    · rw [if_pos hkc, hkc, hlabc, hnode]
    rw [if_neg hkc, hlab' hk1 hk hkc, hnode]
    exact h.label_eq k hk1 hk
  · by_cases hkc : k = c
    · rw [hkc, hparc]
      exact ⟨hancp.trans hancc, by omega⟩
    rw [hpar' (by omega) hk hkc]
    exact h.par_high k hik hk
  · by_cases hkc : k = c
    · rw [hkc, hparc, hlabc]
      obtain ⟨rfl, -⟩ | ⟨rfl, -⟩ := hl
      · obtain ⟨hanc, hlt⟩ := h.lab_high p hip hpn
        exact ⟨hanc.trans hancc, hlt⟩
      obtain ⟨hanc, hlt⟩ := h.lab_high c hic hcn
      exact ⟨hanc, by omega⟩
    rw [hpar' (by omega) hk hkc, hlab' (by omega) hk hkc]
    exact h.lab_high k hik hk
  have hu1 := hu.pos h₀.tree (by omega) hk
  have hun := (hu.le h₀.tree hk).trans hk
  rw [hsem u hu1 hun]
  by_cases hkc : k = c
  · subst hkc
    rw [hparc] at hlt
    rw [hlabc, hsem l hl1.1 hl1.2]
    -- below `p` the old label is least, up to `p` the label of `p`
    obtain hup | hpu := le_or_gt u p
    · obtain ⟨hiu, hle⟩ := h.least p u hip hpn (hu.of_le hancc h₀.tree hk hup) hlt
      refine ⟨hiu, ?_⟩
      obtain ⟨rfl, -⟩ | ⟨rfl, hle'⟩ := hl
      · exact hle
      · exact hle'.trans hle
    obtain ⟨hiu, hle⟩ := h.least k u hik hk hu (by omega)
    refine ⟨hiu, ?_⟩
    obtain ⟨rfl, hlt'⟩ | ⟨rfl, -⟩ := hl
    · exact hlt'.le.trans hle
    · exact hle
  rw [hpar' (by omega) hk hkc] at hlt
  obtain ⟨hl1, hln⟩ := h.lab_bounds h₀ (by omega) hk
  rw [hlab' (by omega) hk hkc, hsem _ hl1 hln]
  exact h.least k u hik hk hu hlt

/-- The second loop of `eval`: in the end the last block of the stack has the parent of `p`. -/
theorem compress_spec (hi : 1 ≤ i) {p : Nat} {l : List Nat} (hip : i < p) (hpn : p ≤ n) (hpi : s.par p ≤ i)
    (hchain : (p :: l).IsChain (s.Above n)) :
    ∃ s' v, s.compress (s.node p) (s.node (s.lab p)) (l.map s.node) = (s', s'.node v) ∧
      (p :: l).getLast? = some v ∧ Linked walk n s₀ s' i ∧ i < v ∧ v ≤ n ∧ s'.par v ≤ i ∧
      ∀ k, 1 ≤ k → k ≤ n → s'.sem k = s.sem k := by
  induction l generalizing s p with
  | nil => exact ⟨s, p, rfl, rfl, h, hip, hpn, hpi, fun _ _ _ => rfl⟩
  | cons c l ih =>
    rw [isChain_cons_cons] at hchain
    obtain ⟨⟨hpar, hpc, hcn⟩, hchain⟩ := hchain
    have hlabel : (s.info (s.node p)).label = s.node (s.lab p) := h.label_eq p (by omega) hpn
    have hlabelc : (s.info (s.node c)).label = s.node (s.lab c) := h.label_eq c (by omega) hcn
    -- the loop goes on below `c` with the label that `c` has got
    have hstep {l' : Nat} (hl : l' = s.lab p ∧ s.sem (s.lab p) < s.sem (s.lab c) ∨
        l' = s.lab c ∧ s.sem (s.lab c) ≤ s.sem (s.lab p))
        (heq : s.compress (s.node p) (s.node (s.lab p)) ((c :: l).map s.node) =
          (s.setInfo (s.node c) { s.info (s.node c) with parent := s.par p, label := s.node l' }).compress
            (s.node c) (s.node l') (l.map s.node)) :
        ∃ s' v, s.compress (s.node p) (s.node (s.lab p)) ((c :: l).map s.node) = (s', s'.node v) ∧
          (p :: c :: l).getLast? = some v ∧ Linked walk n s₀ s' i ∧ i < v ∧ v ≤ n ∧ s'.par v ≤ i ∧
          ∀ k, 1 ≤ k → k ≤ n → s'.sem k = s.sem k := by
      obtain ⟨hkept, hupd⟩ := h.toKept.update h₀ (c := c) (by omega) hcn
        (i := { s.info (s.node c) with parent := s.par p, label := s.node l' }) rfl rfl rfl
      obtain ⟨h1, hpar1, hlab1, hsem1⟩ := h.skip h₀ hi hip hpn hcn hpar hpc hl hkept hupd
      rw [heq]
      generalize s.setInfo (s.node c) { s.info (s.node c) with parent := s.par p, label := s.node l' } =
        s1 at hkept hupd h1 hpar1 hlab1 hsem1 ⊢
      have hchain1 : (c :: l).IsChain (s1.Above n) := by
        have key (l : List Nat) : ∀ a, c ≤ a → (a :: l).IsChain (s.Above n) → (a :: l).IsChain (s1.Above n) := by
          induction l with
          | nil => exact fun a _ _ => isChain_singleton a
          | cons d l ihl =>
            intro a hca hchain
            rw [isChain_cons_cons] at hchain ⊢
            obtain ⟨⟨hd, had, hdn⟩, hchain⟩ := hchain
            refine ⟨⟨?_, had, hdn⟩, ihl d (by omega) hchain⟩
            rw [hupd.par d (by omega) hdn, if_neg (by omega)]
            exact hd
        exact key l c le_rfl hchain
      obtain ⟨s', v, hrun, hlast, hrest⟩ := ih h1 (by omega) hcn (by rw [hpar1]; exact hpi) hchain1
      obtain ⟨h', hiv, hvn, hvi, hsem'⟩ := hrest
      refine ⟨s', v, ?_, ?_, h', hiv, hvn, hvi, fun k hk1 hk => (hsem' k hk1 hk).trans (hsem1 k hk1 hk)⟩
      · have hnode : s1.node = s.node := funext fun k => by rw [h1.node_eq, h.node_eq]
        rw [hlab1, hnode] at hrun
        exact hrun
      rw [getLast?_cons_cons]
      exact hlast
    rw [map_cons] at hstep ⊢
    by_cases hlt : s.sem (s.lab p) < s.sem (s.lab c)
    · apply hstep (.inl ⟨rfl, hlt⟩)
      rw [compress, hlabelc, hlabel]
      exact if_pos hlt
    apply hstep (.inr ⟨rfl, not_lt.mp hlt⟩)
    rw [compress, hlabelc]
    have hself : ({ s.info (s.node c) with parent := s.par p, label := s.node (s.lab c) } : NodeInfo B) =
        { s.info (s.node c) with parent := s.par p } := by rw [← hlabelc]
    rw [hself]
    exact if_neg hlt

/-- **`eval`** keeps what is linked, and finds the least semidominator above `v` in the part of the tree
that is linked. -/
theorem eval_spec (hi : 1 ≤ i) {v : Nat} (hv1 : 1 ≤ v) (hv : v ≤ n) (hvi : v ≠ i) :
    ∃ s' l, s.eval (s.node v) (i + 1) = some (s', s'.node l) ∧ Linked walk n s₀ s' i ∧
      (∀ k, 1 ≤ k → k ≤ n → s'.sem k = s.sem k) ∧ (v < i → l = v) ∧
      (i < v → Anc s₀.par l v ∧ i < l ∧ ∀ u, Anc s₀.par u v → i < u → s.sem l ≤ s.sem u) := by
  have hleast {s' : DomTreeBuilder B} (h' : Linked walk n s₀ s' i) (hiv : i < v) (hpar : s'.par v ≤ i) :
      Anc s₀.par (s'.lab v) v ∧ i < s'.lab v ∧ ∀ u, Anc s₀.par u v → i < u → s'.sem (s'.lab v) ≤ s'.sem u := by
    obtain ⟨hanc, hlt⟩ := h'.lab_high v hiv hv
    exact ⟨hanc, (h'.least v _ hiv hv hanc hlt).1, fun u hu hiu =>
      (h'.least v u hiv hv hu (by omega)).2⟩
  by_cases hpar : s.par v < i + 1
  · refine ⟨s, s.lab v, ?_, h, fun _ _ _ => rfl, fun hlt => ?_, fun hiv => hleast h hiv (by omega)⟩
    · rw [eval, if_pos (show (s.info (s.node v)).parent < i + 1 from hpar), h.label_eq v hv1 hv]
    · exact h.lab_low v hv1 hlt.le
  have hlen : s.indexToNode.length = n + 1 := by rw [h.indexToNode, h₀.length]
  obtain ⟨p, l, hclimb, hip, hpn, hpi, hchain, hlast⟩ := h.climb_spec h₀ hi (n + 1) []
    (by omega) hv1 hv (by omega) (isChain_singleton v)
  obtain ⟨s', v', hcompress, hlast', h', hiv', -, hvi', hsem⟩ := h.compress_spec h₀ hi hip hpn hpi hchain
  obtain rfl : v' = v := by
    cases l with
    | nil => cases hlast
    | cons c l =>
      rw [getLast?_cons_cons, hlast] at hlast'
      exact (some.inj hlast').symm
  refine ⟨s', s'.lab v', ?_, h', hsem, fun hlt => by omega, fun _ => ?_⟩
  · rw [eval, if_neg (show ¬(s.info (s.node v')).parent < i + 1 from hpar), hlen]
    rw [show s.climb (i + 1) (n + 1) (s.node v') [] = _ from hclimb]
    simp only [map_some]
    rw [h.label_eq p (by omega) hpn, hcompress]
    simp only [h'.label_eq v' hv1 hv]
  obtain ⟨hanc, hlt, hmin⟩ := hleast h' hiv' hvi'
  refine ⟨hanc, hlt, fun u hu hiu => ?_⟩
  have hun := (hu.le h₀.tree hv).trans hv
  obtain ⟨hl1, hln⟩ := h'.lab_bounds h₀ hv1 hv
  rw [← hsem _ hl1 hln, ← hsem u (by omega) hun]
  exact hmin u hu hiu

/-- A change of the semidominator of `i` itself does not matter. -/
theorem setSemi (hi : 1 ≤ i) (hin : i ≤ n) (x : Nat) :
    Linked walk n s₀ (s.setInfo (s.node i) { s.info (s.node i) with semi := x }) i ∧
      ∀ k, 1 ≤ k → k ≤ n → (s.setInfo (s.node i) { s.info (s.node i) with semi := x }).sem k =
        if k = i then x else s.sem k := by
  obtain ⟨hkept, hupd⟩ := h.toKept.update h₀ hi hin (i := { s.info (s.node i) with semi := x }) rfl rfl rfl
  generalize s.setInfo (s.node i) { s.info (s.node i) with semi := x } = s' at hkept hupd
  have hpar {k : Nat} (hk1 : 1 ≤ k) (hk : k ≤ n) : s'.par k = s.par k := by
    rw [hupd.par k hk1 hk]
    split
    · next heq =>
      rw [heq]
      rfl
    rfl
  have hlab {k : Nat} (hk1 : 1 ≤ k) (hk : k ≤ n) : s'.lab k = s.lab k := by
    rw [hupd.lab k hk1 hk]
    split
    · next heq =>
      rw [heq]
      rfl
    rfl
  have hsem {k : Nat} (hk1 : 1 ≤ k) (hk : k ≤ n) (hki : k ≠ i) : s'.sem k = s.sem k := by
    rw [hupd.sem k hk1 hk, if_neg hki]
  refine ⟨?_, hupd.sem⟩
  refine { hkept with
      label_eq := fun k hk1 hk => ?_
      par_low := fun k hk1 hk => by rw [hpar hk1 (by omega)]; exact h.par_low k hk1 hk
      lab_low := fun k hk1 hk => by rw [hlab hk1 (by omega)]; exact h.lab_low k hk1 hk
      sem_low := fun k hk1 hk => by rw [hsem hk1 (by omega) (by omega)]; exact h.sem_low k hk1 hk
      sem_high := fun k hik hk => by rw [hsem (by omega) hk (by omega)]; exact h.sem_high k hik hk
      par_high := fun k hik hk => by rw [hpar (by omega) hk]; exact h.par_high k hik hk
      lab_high := fun k hik hk => by
        rw [hpar (by omega) hk, hlab (by omega) hk]
        exact h.lab_high k hik hk
      least := fun k u hik hk hu hlt => ?_ }
  · have hlabel : (s'.info (s'.node k)).label = (s.info (s.node k)).label := by
      rw [hupd.label k hk1 hk]
      split
      · next heq => rw [heq]
      · rfl
    rw [hlabel, hlab hk1 hk, h.label_eq k hk1 hk, hkept.node_eq, h.node_eq]
  rw [hpar (by omega) hk] at hlt
  obtain ⟨hiu, hle⟩ := h.least k u hik hk hu hlt
  have hun := (hu.le h₀.tree hk).trans hk
  obtain ⟨hanc, hlt'⟩ := h.lab_high k hik hk
  have hil := (h.least k _ hik hk hanc hlt').1
  obtain ⟨hl1, hln⟩ := h.lab_bounds h₀ (by omega) hk
  rw [hlab (by omega) hk, hsem hl1 hln (by omega), hsem (by omega) hun (by omega)]
  exact ⟨hiu, hle⟩

end

end Linked

/-- The semidominator of `i` after the predecessors `done`. `σ` are the semidominators of the others. -/
structure SemiSoFar (walk : B → List B) (n : Nat) (s₀ s : DomTreeBuilder B) (i : Nat) (σ : Nat → Nat)
    (done : List B) : Prop where
  linked : Linked walk n s₀ s i
  others : ∀ k, 1 ≤ k → k ≤ n → k ≠ i → s.sem k = σ k
  attained : (NumEdge walk s₀ n (s.sem i) i ∧ s.sem i < i) ∨
    ∃ v u, NumEdge walk s₀ n v i ∧ i < u ∧ Anc s₀.par u v ∧ s.sem i = σ u
  le_par : s.sem i ≤ s₀.par i
  le_low : ∀ v, 1 ≤ v → v < i → s₀.node v ∈ done → s.sem i ≤ v
  le_high : ∀ v u, v ≤ n → s₀.node v ∈ done → i < u → Anc s₀.par u v → s.sem i ≤ σ u

variable {i : Nat} {σ : Nat → Nat} {done : List B} (h₀ : Searched walk root s₀ n [])

include h₀

theorem SemiSoFar.step (h : SemiSoFar walk n s₀ s i σ done) (hi : 1 < i) (hin : i ≤ n) {child : B}
    (hchild : child ∈ (s₀.info (s₀.node i)).revChildren) :
    ∃ s', semiOf (s.node i) i s child = some s' ∧ SemiSoFar walk n s₀ s' i σ (done ++ [child]) := by
  obtain ⟨hnum, hedge, hne⟩ := (h₀.revChildren _ _).mp hchild
  -- the child is a number other than `i`
  obtain ⟨v, hv1, hvn, rfl⟩ : ∃ v, 1 ≤ v ∧ v ≤ n ∧ s₀.node v = child :=
    ⟨(s₀.info child).dfsNum, by omega, h₀.dfsNum_le child, h₀.node_dfsNum child hnum⟩
  have hvi : v ≠ i := by
    rintro rfl
    exact hne rfl
  have he : NumEdge walk s₀ n v i := ⟨⟨hv1, hvn⟩, ⟨by omega, hin⟩, hedge⟩
  obtain ⟨s1, l, heval, h1, hsem1, hlow, hhigh⟩ := h.linked.eval_spec h₀ (by omega) hv1 hvn hvi
  have hl : 1 ≤ l ∧ l ≤ n := by
    obtain hlt | hgt := lt_or_gt_of_ne hvi
    · rw [hlow hlt]
      exact ⟨hv1, hvn⟩
    obtain ⟨hanc, -, -⟩ := hhigh hgt
    exact ⟨hanc.pos h₀.tree hv1 hvn, (hanc.le h₀.tree hvn).trans hvn⟩
  have hlowSem (hlt : v < i) : s1.sem l = v := by
    rw [hlow hlt, hsem1 v hv1 hvn]
    exact h.linked.sem_low v hv1 hlt
  have hhighSem (hgt : i < v) : s1.sem l = σ l := by
    rw [hsem1 l hl.1 hl.2]
    exact h.others l hl.1 hl.2 (by omega)
  -- what the child has to offer
  have hnewLow (w : Nat) (hw1 : 1 ≤ w) (hwi : w < i) (hw : s₀.node w = s₀.node v) : s1.sem l ≤ w := by
    obtain rfl := (h₀.node_inj hw1 (by omega) hv1 hvn).mp hw
    exact (hlowSem hwi).le
  have hnewHigh (w u : Nat) (hwn : w ≤ n) (hw : s₀.node w = s₀.node v) (hiu : i < u)
      (hanc : Anc s₀.par u w) : s1.sem l ≤ σ u := by
    have huw := hanc.le h₀.tree hwn
    obtain rfl := (h₀.node_inj (by omega) hwn hv1 hvn).mp hw
    obtain ⟨-, -, hmin⟩ := hhigh (by omega)
    rw [hsem1 l hl.1 hl.2, ← h.others u (by omega) (by omega) (by omega)]
    exact hmin u hanc hiu
  have hsem_i : s1.sem i = s.sem i := hsem1 i (by omega) hin
  have hcall : semiOf (s.node i) i s (s₀.node v) = some (if s1.sem l < s1.sem i then
      s1.setInfo (s1.node i) { s1.info (s1.node i) with semi := s1.sem l } else s1) := by
    have hsome : ¬(s.nodeToInfo (s₀.node v)).isNone = true := by
      have := isSome_of_dfsNum (s := s) (b := s₀.node v) (by rw [h.linked.dfsNum]; exact hnum)
      rw [isNone_iff_eq_none]
      intro hnone
      rw [hnone] at this
      cases this
    rw [semiOf, if_neg hsome, ← h.linked.node_eq v, heval, map_some, h.linked.node_eq i, ← h1.node_eq i]
    rfl
  refine ⟨_, hcall, ?_⟩
  by_cases hlt : s1.sem l < s1.sem i
  · rw [if_pos hlt]
    obtain ⟨h2, hsem2⟩ := h1.setSemi h₀ (by omega) hin (s1.sem l)
    generalize s1.setInfo (s1.node i) { s1.info (s1.node i) with semi := s1.sem l } = s2 at h2 hsem2 ⊢
    have hi2 : s2.sem i = s1.sem l := by rw [hsem2 i (by omega) hin, if_pos rfl]
    refine ⟨h2, fun k hk1 hk hki => ?_, ?_, ?_, fun w hw1 hwi hw => ?_, fun w u hwn hw hiu hanc => ?_⟩
    · rw [hsem2 k hk1 hk, if_neg hki, hsem1 k hk1 hk]
      exact h.others k hk1 hk hki
    · rw [hi2]
      obtain hlt | hgt := lt_or_gt_of_ne hvi
      · rw [hlowSem hlt]
        exact .inl ⟨he, hlt⟩
      obtain ⟨hanc, hil, -⟩ := hhigh hgt
      exact .inr ⟨v, l, he, hil, hanc, hhighSem hgt⟩
    · have := h.le_par
      omega
    · rw [hi2]
      obtain hw | hw := mem_append.mp hw
      · have := h.le_low w hw1 hwi hw
        omega
      exact hnewLow w hw1 hwi (mem_singleton.mp hw)
    rw [hi2]
    obtain hw | hw := mem_append.mp hw
    · have := h.le_high w u hwn hw hiu hanc
      omega
    exact hnewHigh w u hwn (mem_singleton.mp hw) hiu hanc
  rw [if_neg hlt]
  refine ⟨h1, fun k hk1 hk hki => (hsem1 k hk1 hk).trans (h.others k hk1 hk hki), ?_, ?_,
    fun w hw1 hwi hw => ?_, fun w u hwn hw hiu hanc => ?_⟩
  · rw [hsem_i]
    exact h.attained
  · rw [hsem_i]
    exact h.le_par
  · obtain hw | hw := mem_append.mp hw
    · rw [hsem_i]
      exact h.le_low w hw1 hwi hw
    exact (not_lt.mp hlt).trans (hnewLow w hw1 hwi (mem_singleton.mp hw))
  obtain hw | hw := mem_append.mp hw
  · rw [hsem_i]
    exact h.le_high w u hwn hw hiu hanc
  exact (not_lt.mp hlt).trans (hnewHigh w u hwn (mem_singleton.mp hw) hiu hanc)

theorem SemiSoFar.run (h : SemiSoFar walk n s₀ s i σ done) (hi : 1 < i) (hin : i ≤ n) (todo : List B)
    (htodo : ∀ child ∈ todo, child ∈ (s₀.info (s₀.node i)).revChildren) :
    ∃ s', todo.foldlM (semiOf (s₀.node i) i) s = some s' ∧ SemiSoFar walk n s₀ s' i σ (done ++ todo) := by
  induction todo generalizing s done with
  | nil => exact ⟨s, rfl, by rwa [append_nil]⟩
  | cons child todo ih =>
    obtain ⟨s1, hstep, h1⟩ := h.step h₀ hi hin (htodo child mem_cons_self)
    obtain ⟨s2, hrun, h2⟩ := ih h1 fun c hc => htodo c (mem_cons_of_mem child hc)
    refine ⟨s2, ?_, ?_⟩
    · rw [h.linked.node_eq] at hstep
      rw [foldlM_cons, hstep]
      exact hrun
    rw [append_assoc] at h2
    exact h2

/-- **One turn of the second loop** finds the semidominator of `i`. -/
theorem Linked.findSemi_spec (h : Linked walk n s₀ s i) (hi : 1 < i) (hin : i ≤ n) :
    ∃ s', s.findSemi i = some s' ∧ Linked walk n s₀ s' (i - 1) := by
  have htree := h₀.tree i hi hin
  obtain ⟨h1, hsem1⟩ := h.setSemi h₀ (by omega) hin (s.par i)
  have hstart : SemiSoFar walk n s₀ (s.setInfo (s.node i) { s.info (s.node i) with semi := s.par i }) i s.sem [] := by
    have hpar : s.par i = s₀.par i := h.par_low i (by omega) le_rfl
    generalize s.setInfo (s.node i) { s.info (s.node i) with semi := s.par i } = s1 at h1 hsem1
    have hi1 : s1.sem i = s₀.par i := by rw [hsem1 i (by omega) hin, if_pos rfl, hpar]
    refine ⟨h1, fun k hk1 hk hki => by rw [hsem1 k hk1 hk, if_neg hki], .inl ?_, hi1.le,
      fun v _ _ hv => absurd hv not_mem_nil, fun v u _ hv => absurd hv not_mem_nil⟩
    rw [hi1]
    exact ⟨h₀.dfsTree.par_edge i hi hin, htree.2⟩
  obtain ⟨s', hrun, hdone⟩ := hstart.run h₀ hi hin (s₀.info (s₀.node i)).revChildren fun _ => id
  rw [nil_append] at hdone
  refine ⟨s', ?_, ?_⟩
  · have hrev : ((s.setInfo (s.node i) { s.info (s.node i) with semi := s.par i }).info
        (s.node i)).revChildren = (s₀.info (s₀.node i)).revChildren := by rw [h1.revChildren, h.node_eq]
    have hcall : s.findSemi i = ((s.setInfo (s.node i) { s.info (s.node i) with semi := s.par i }).info
          (s.node i)).revChildren.foldlM (semiOf (s.node i) i)
          (s.setInfo (s.node i) { s.info (s.node i) with semi := s.par i }) := rfl
    rw [hcall, hrev, h.node_eq]
    rw [h.node_eq] at hrun
    exact hrun
  have hl := hdone.linked
  have hmem {v : Nat} (he : NumEdge walk s₀ n v i) (hvi : v ≠ i) : s₀.node v ∈ (s₀.info (s₀.node i)).revChildren := by
    refine (h₀.revChildren _ _).mpr ⟨?_, he.2.2, fun heq => ?_⟩
    · rw [h₀.dfsNum_node v he.1.1 he.1.2]
      have := he.1.1
      omega
    exact hvi ((h₀.node_inj he.1.1 he.1.2 (by omega) hin).mp heq)
  have hsemi : IsSemi (NumEdge walk s₀ n) i (s'.sem i) := by
    refine h₀.dfsTree.isSemi_of_bounds s.sem hi hin (fun u hiu hu => h.sem_high u hiu hu)
      hdone.attained (fun v he hvi => ?_) (fun v u he hiu hanc => ?_)
    · exact hdone.le_low v he.1.1 hvi (hmem he hvi.ne)
    have := hanc.le h₀.tree he.1.2
    exact hdone.le_high v u he.1.2 (hmem he (by omega)) hiu hanc
  have hpar_i : s'.par i = s₀.par i := hl.par_low i (by omega) le_rfl
  have hlab_i : s'.lab i = i := hl.lab_low i (by omega) le_rfl
  refine { hl.toKept with
      label_eq := hl.label_eq
      par_low := fun k hk1 hk => hl.par_low k hk1 (by omega)
      lab_low := fun k hk1 hk => hl.lab_low k hk1 (by omega)
      sem_low := fun k hk1 hk => hl.sem_low k hk1 (by omega)
      sem_high := fun k hik hk => ?_
      par_high := fun k hik hk => ?_
      lab_high := fun k hik hk => ?_
      least := fun k u hik hk hu hlt => ?_ }
  · obtain rfl | hik : k = i ∨ i < k := by omega
    · exact hsemi
    · exact hl.sem_high k hik hk
  · obtain rfl | hik : k = i ∨ i < k := by omega
    · rw [hpar_i]
      exact ⟨.up hi .refl, htree.2⟩
    exact hl.par_high k hik hk
  · obtain rfl | hik : k = i ∨ i < k := by omega
    · rw [hpar_i, hlab_i]
      exact ⟨.refl, htree.2⟩
    exact hl.lab_high k hik hk
  obtain rfl | hik : k = i ∨ i < k := by omega
  · -- only `i` itself is below its parent
    rw [hpar_i] at hlt
    rw [hlab_i]
    obtain rfl : u = k := by
      by_contra hne
      have := (hu.par_of_ne hne).2.le h₀.tree (by omega)
      omega
    exact ⟨by omega, le_rfl⟩
  obtain ⟨hiu, hle⟩ := hl.least k u hik hk hu hlt
  exact ⟨by omega, hle⟩

/-- The second loop. -/
theorem Linked.run {m : Nat} (h : Linked walk n s₀ s (m + 1)) (hm : m + 1 ≤ n) :
    ∃ s', (List.range' 2 m).reverse.foldlM findSemi s = some s' ∧ Linked walk n s₀ s' 1 := by
  induction m generalizing s with
  | zero => exact ⟨s, rfl, h⟩
  | succ m ih =>
    obtain ⟨s1, hstep, h1⟩ := h.findSemi_spec h₀ (by omega) hm
    obtain ⟨s2, hrun, h2⟩ := ih h1 (by omega)
    refine ⟨s2, ?_, h2⟩
    rw [range'_concat, reverse_append, reverse_singleton, singleton_append, foldlM_cons, Nat.one_mul, Nat.add_comm 2 m]
    rw [show s.findSemi (m + 2) = some s1 from hstep]
    exact hrun

end DomTreeBuilder

end Rpcsx.Shader
