import Mathlib.Data.List.Nodup
import Rpcsx.Shader.DomTree.ImmDom

/-!
# The tree and its numbers

The builder hangs every block below its immediate dominator, and `updateDFSNumbers` gives each block the
times at which a walk over the tree enters and leaves it. The intervals of two blocks are nested exactly
when one is above the other.
-/

namespace Rpcsx.Shader

open Lib Relation List Option

variable {B : Type} [Inhabited B]

namespace DomTree

def record (t : DomTree B) (node : Nat → B) (k : Nat) : DomTreeNode B := (t.getNode (node k)).getD {}

end DomTree

def kids (imm : Nat → Nat) (m k : Nat) : List Nat :=
  (List.range' 2 (m - 1)).filter fun j => decide (imm j = k)

variable {m k : Nat}

theorem mem_kids {imm : Nat → Nat} {j : Nat} : j ∈ kids imm m k ↔ 1 < j ∧ j ≤ m ∧ imm j = k := by
  rw [kids, mem_filter, mem_range'_1, decide_eq_true_eq]
  omega

theorem nodup_kids (imm : Nat → Nat) (m k : Nat) : (kids imm m k).Nodup := List.Nodup.filter _ (nodup_range' 1)

theorem kids_succ (imm : Nat → Nat) (hm : 1 ≤ m) (k : Nat) :
    kids imm (m + 1) k = if imm (m + 1) = k then kids imm m k ++ [m + 1] else kids imm m k := by
  have hrange : List.range' 2 (m + 1 - 1) = List.range' 2 (m - 1) ++ [m + 1] := by
    obtain ⟨m, rfl⟩ : ∃ l, m = l + 1 := ⟨m - 1, by omega⟩
    rw [Nat.add_sub_cancel, Nat.add_sub_cancel, range'_concat, Nat.one_mul, Nat.add_comm 2 m]
  rw [kids, hrange, filter_append]
  by_cases h : imm (m + 1) = k
  · rw [if_pos h, filter_cons_of_pos (by simpa using h)]
    rfl
  rw [if_neg h, filter_cons_of_neg (by simpa using h), filter_nil, append_nil]
  rfl

structure IsTreeOf (node : Nat → B) (imm : Nat → Nat) (m : Nat) (t : DomTree B) : Prop where
  root : t.rootNode = some (node 1)
  isSome : ∀ k, 1 ≤ k → k ≤ m → t.getNode (node k) = some (t.record node k)
  block : ∀ k, 1 ≤ k → k ≤ m → (t.record node k).block = node k
  immDom_one : (t.record node 1).immDom = none
  immDom : ∀ k, 1 < k → k ≤ m → (t.record node k).immDom = some (node (imm k))
  level_one : (t.record node 1).level = 0
  level : ∀ k, 1 < k → k ≤ m → (t.record node k).level = (t.record node (imm k)).level + 1
  children : ∀ k, 1 ≤ k → k ≤ m → (t.record node k).children = (kids imm m k).map node

variable [DecidableEq B]

/-! ## Building the tree -/

theorem DomTree.getNode_setNode (t : DomTree B) (b c : B) (nd : DomTreeNode B) :
    (t.setNode b nd).getNode c = if c = b then some nd else t.getNode c := by
  by_cases h : c = b
  · subst h
    simp [getNode, setNode]
  simp [getNode, setNode, h]

variable {node : Nat → B} {imm : Nat → Nat} {n : Nat}

def Distinct (node : Nat → B) (n : Nat) : Prop :=
  ∀ j k, 1 ≤ j → j ≤ n → 1 ≤ k → k ≤ n → node j = node k → j = k

variable {c : Nat}

theorem DomTree.record_setNode (hdis : Distinct node n) (t : DomTree B) (hc1 : 1 ≤ c) (hc : c ≤ n) (hk1 : 1 ≤ k)
    (hk : k ≤ n) (nd : DomTreeNode B) :
    (t.setNode (node c) nd).record node k = if k = c then nd else t.record node k := by
  rw [DomTree.record, getNode_setNode]
  by_cases hkc : k = c
  · rw [if_pos (by rw [hkc]), if_pos hkc]
    rfl
  rw [if_neg fun heq => hkc (hdis k c hk1 hk hc1 hc heq), if_neg hkc]
  rfl

theorem isTreeOf_createRoot (node : Nat → B) (imm : Nat → Nat) :
    IsTreeOf node imm 1 (DomTree.empty.createRoot (node 1)) := by
  have hat : (DomTree.empty.createRoot (node 1)).getNode (node 1) = some { block := node 1 } := by
    rw [DomTree.createRoot]
    simp [DomTree.getNode, DomTree.setNode, DomTree.empty]
  have hat' : (DomTree.empty.createRoot (node 1)).record node 1 = { block := node 1 } := by
    rw [DomTree.record, hat]
    rfl
  have hone {k : Nat} (hk1 : 1 ≤ k) (hk : k ≤ 1) : k = 1 := by omega
  refine ⟨rfl, fun k hk1 hk => ?_, fun k hk1 hk => ?_, ?_, fun k hk1 hk => by omega, ?_,
    fun k hk1 hk => by omega, fun k hk1 hk => ?_⟩
  · rw [hone hk1 hk, hat, hat']
  · rw [hone hk1 hk, hat']
  · rw [hat']
  · rw [hat']
  rw [hone hk1 hk, hat']
  rfl

variable {t : DomTree B}

theorem IsTreeOf.createChild (h : IsTreeOf node imm m t) (hdis : Distinct node n) (htree : IsTree n imm) (hm : 1 ≤ m)
    (hmn : m + 1 ≤ n) (hfresh : t.getNode (node (m + 1)) = none) :
    ∃ t', t.createChild (node (m + 1)) (node (imm (m + 1))) = some t' ∧ IsTreeOf node imm (m + 1) t' ∧
      ∀ k, m + 1 < k → k ≤ n → t.getNode (node k) = none → t'.getNode (node k) = none := by
  obtain ⟨hp1, hpm⟩ := htree (m + 1) (by omega) hmn
  rw [Nat.lt_succ_iff] at hpm
  generalize hp : imm (m + 1) = p at hp1 hpm
  have hne : node p ≠ node (m + 1) := fun heq => by
    have := hdis p (m + 1) hp1 (by omega) (by omega) hmn heq
    omega
  generalize ht1 : t.setNode (node (m + 1)) { (t.getNode (node (m + 1))).getD {} with
    block := node (m + 1), immDom := some (node p), level := (t.record node p).level + 1 } = t1
  generalize ht2 : t1.setNode (node p)
    { t.record node p with children := (t.record node p).children ++ [node (m + 1)] } = t2
  have hp₁ : t1.getNode (node p) = some (t.record node p) := by
    rw [← ht1, DomTree.getNode_setNode, if_neg hne, h.isSome p hp1 hpm]
  have hcreate : t.createChild (node (m + 1)) (node p) = some t2 := by
    rw [DomTree.createChild, h.isSome p hp1 hpm, bind_some]
    simp only [ht1, hp₁, map_some, ht2]
  -- the record of each number afterwards
  have hnew : t2.record node (m + 1) =
      { block := node (m + 1), immDom := some (node p), level := (t.record node p).level + 1 } := by
    rw [← ht2, DomTree.record_setNode hdis _ hp1 (by omega) (by omega) hmn, if_neg (by omega), ← ht1,
      DomTree.record_setNode hdis _ (by omega) hmn (by omega) hmn, if_pos rfl, hfresh]
    rfl
  have hparent : t2.record node p =
      { t.record node p with children := (t.record node p).children ++ [node (m + 1)] } := by
    rw [← ht2, DomTree.record_setNode hdis _ hp1 (by omega) hp1 (by omega), if_pos rfl]
  have hother {k : Nat} (hk1 : 1 ≤ k) (hk : k ≤ m) (hkp : k ≠ p) : t2.record node k = t.record node k := by
    rw [← ht2, DomTree.record_setNode hdis _ hp1 (by omega) hk1 (by omega), if_neg hkp, ← ht1,
      DomTree.record_setNode hdis _ (by omega) hmn hk1 (by omega), if_neg (by omega)]
  have hlevel {k : Nat} (hk1 : 1 ≤ k) (hk : k ≤ m) : (t2.record node k).level = (t.record node k).level := by
    by_cases hkp : k = p
    · rw [hkp, hparent]
    · rw [hother hk1 hk hkp]
  have himm {k : Nat} (hk1 : 1 ≤ k) (hk : k ≤ m) : (t2.record node k).immDom = (t.record node k).immDom := by
    by_cases hkp : k = p
    · rw [hkp, hparent]
    · rw [hother hk1 hk hkp]
  have hget (k : Nat) : t2.getNode (node k) = if node k = node p then some (t2.record node p) else
      if node k = node (m + 1) then some (t2.record node (m + 1)) else t.getNode (node k) := by
    rw [hparent, hnew, ← ht2, DomTree.getNode_setNode, ← ht1, DomTree.getNode_setNode, hfresh]
    rfl
  refine ⟨t2, hcreate, ?_, fun k hmk hk hnone => ?_⟩
  · refine ⟨?_, fun k hk1 hk => ?_, fun k hk1 hk => ?_, ?_, fun k hk1 hk => ?_, ?_, fun k hk1 hk => ?_,
      fun k hk1 hk => ?_⟩
    · rw [← ht2, ← ht1]
      exact h.root
    · rw [hget]
      by_cases hkp : k = p
      · rw [if_pos (by rw [hkp]), hkp]
      rw [if_neg fun heq => hkp (hdis k p hk1 (by omega) hp1 (by omega) heq)]
      by_cases hkm : k = m + 1
      · rw [if_pos (by rw [hkm]), hkm]
      rw [if_neg fun heq => hkm (hdis k (m + 1) hk1 (by omega) (by omega) hmn heq), hother hk1 (by omega) hkp]
      exact h.isSome k hk1 (by omega)
    · by_cases hkm : k = m + 1
      · rw [hkm, hnew]
      by_cases hkp : k = p
      · rw [hkp, hparent]
        exact h.block p hp1 hpm
      rw [hother hk1 (by omega) hkp]
      exact h.block k hk1 (by omega)
    · rw [himm le_rfl hm]
      exact h.immDom_one
    · by_cases hkm : k = m + 1
      · rw [hkm, hnew, hp]
      rw [himm (by omega) (by omega)]
      exact h.immDom k hk1 (by omega)
    · rw [hlevel le_rfl hm]
      exact h.level_one
    · by_cases hkm : k = m + 1
      · rw [hkm, hp, hlevel hp1 hpm, hnew]
      have := htree k hk1 (by omega)
      rw [hlevel (by omega) (by omega), hlevel this.1 (by omega)]
      exact h.level k hk1 (by omega)
    rw [kids_succ imm hm, hp]
    by_cases hkm : k = m + 1
    · have hnil : kids imm m (m + 1) = [] := by
        rw [eq_nil_iff_forall_not_mem]
        intro j hj
        obtain ⟨hj1, hjm, himm⟩ := mem_kids.mp hj
        have := htree j hj1 (by omega)
        omega
      rw [hkm, if_neg (by omega), hnil, hnew]
      rfl
    by_cases hkp : k = p
    · rw [hkp, if_pos rfl, hparent, map_append, h.children p hp1 hpm]
      rfl
    rw [hother hk1 (by omega) hkp, if_neg (Ne.symm hkp)]
    exact h.children k hk1 (by omega)
  rw [hget, if_neg fun heq => ?_, if_neg fun heq => ?_]
  · exact hnone
  · have := hdis k (m + 1) (by omega) hk (by omega) hmn heq
    omega
  have := hdis k p (by omega) hk hp1 (by omega) heq
  omega

namespace DomTreeBuilder

variable {s : DomTreeBuilder B}

/-- The loop of `build`: the immediate dominator of a number has its node already. -/
theorem attach_run {t : DomTree B} {m l : Nat} (h : IsTreeOf s.node imm m t) (hdis : Distinct s.node n)
    (htree : IsTree n imm) (hidom : ∀ k, 1 < k → k ≤ n → s.getIDom (s.node k) = s.node (imm k))
    (hlen : s.indexToNode.length = n + 1) (hm : 1 ≤ m) (hml : m + l = n)
    (hfresh : ∀ k, m < k → k ≤ n → t.getNode (s.node k) = none) :
    ∃ t', (List.range' (m + 1) l).foldlM s.attach t = some t' ∧ IsTreeOf s.node imm n t' := by
  induction l generalizing m t with
  | zero =>
    obtain rfl : m = n := by omega
    exact ⟨t, rfl, h⟩
  | succ l ih =>
    have hfresh1 := hfresh (m + 1) (by omega) (by omega)
    obtain ⟨hp1, hpm⟩ := htree (m + 1) (by omega) (by omega)
    obtain ⟨t1, hcreate, h1, hkeep⟩ := h.createChild hdis htree hm (by omega) hfresh1
    obtain ⟨t2, hrun, h2⟩ := ih h1 (by omega) (by omega) fun k hmk hk =>
      hkeep k hmk hk (hfresh k (by omega) hk)
    refine ⟨t2, ?_, h2⟩
    have hnode : s.getNodeForBlock (n + 1) (s.node (imm (m + 1))) t = some t := by
      rw [getNodeForBlock, h.isSome _ hp1 (by omega)]
      rfl
    have hattach : s.attach t (m + 1) = some t1 := by
      rw [attach, hfresh1, hlen]
      simp only [isSome_none, Bool.false_eq_true, if_false]
      rw [hidom (m + 1) (by omega) (by omega), hnode, bind_some, hcreate]
    rw [range'_succ, foldlM_cons, hattach]
    exact hrun

end DomTreeBuilder

/-! ## The times -/

/-- Setting a time leaves the tree as it is. -/
theorem IsTreeOf.setNode (h : IsTreeOf node imm n t) (hdis : Distinct node n) (hc1 : 1 ≤ c) (hc : c ≤ n)
    {nd : DomTreeNode B} (hblock : nd.block = (t.record node c).block) (himm : nd.immDom = (t.record node c).immDom)
    (hlevel : nd.level = (t.record node c).level) (hchildren : nd.children = (t.record node c).children)
    (htree : IsTree n imm) : IsTreeOf node imm n (t.setNode (node c) nd) := by
  have hrecord {k : Nat} (hk1 : 1 ≤ k) (hk : k ≤ n) :
      (t.setNode (node c) nd).record node k = if k = c then nd else t.record node k :=
    t.record_setNode hdis hc1 hc hk1 hk nd
  have hlev {k : Nat} (hk1 : 1 ≤ k) (hk : k ≤ n) :
      ((t.setNode (node c) nd).record node k).level = (t.record node k).level := by
    rw [hrecord hk1 hk]
    split
    · next heq => rw [heq, hlevel]
    · rfl
  refine ⟨h.root, fun k hk1 hk => ?_, fun k hk1 hk => ?_, ?_, fun k hk1 hk => ?_, ?_, fun k hk1 hk => ?_,
    fun k hk1 hk => ?_⟩
  · rw [hrecord hk1 hk, DomTree.getNode_setNode]
    by_cases hkc : k = c
    · rw [if_pos (by rw [hkc]), if_pos hkc]
    rw [if_neg fun heq => hkc (hdis k c hk1 hk hc1 hc heq), if_neg hkc]
    exact h.isSome k hk1 hk
  · rw [hrecord hk1 hk]
    split
    · next heq =>
      rw [hblock, heq]
      exact h.block c hc1 hc
    exact h.block k hk1 hk
  · rw [hrecord le_rfl (by omega)]
    split
    · next heq =>
      rw [himm, ← heq]
      exact h.immDom_one
    exact h.immDom_one
  · rw [hrecord (by omega) hk]
    split
    · next heq =>
      rw [himm, ← heq]
      exact h.immDom k hk1 hk
    exact h.immDom k hk1 hk
  · rw [hlev le_rfl (by omega)]
    exact h.level_one
  · have := htree k hk1 hk
    rw [hlev (by omega) hk, hlev this.1 (by omega)]
    exact h.level k hk1 hk
  rw [hrecord hk1 hk]
  split
  · next heq =>
    rw [hchildren, ← heq]
    exact h.children k hk1 hk
  exact h.children k hk1 hk

def Within (t : DomTree B) (node : Nat → B) (x y : Nat) : Prop :=
  (t.record node x).dfsNumIn ≤ (t.record node y).dfsNumIn ∧
    (t.record node y).dfsNumOut ≤ (t.record node x).dfsNumOut

/-- From `t` to `t'` the children `rest` of `k`, and then `k` itself, were left, from time `c` to `c'`. -/
structure Timed (node : Nat → B) (imm : Nat → Nat) (n : Nat) (t t' : DomTree B) (k : Nat)
    (rest : List Nat) (c c' : Nat) : Prop where
  tree : IsTreeOf node imm n t'
  lt : c < c'
  out_eq : (t'.record node k).dfsNumOut + 1 = c'
  in_eq : (t'.record node k).dfsNumIn = (t.record node k).dfsNumIn
  frame : ∀ j, 1 ≤ j → j ≤ n → j ≠ k → (∀ d ∈ rest, ¬Anc imm d j) → t'.record node j = t.record node j
  inside : ∀ d ∈ rest, ∀ x, x ≤ n → Anc imm d x → c ≤ (t'.record node x).dfsNumIn ∧
    (t'.record node x).dfsNumIn < (t'.record node x).dfsNumOut ∧ (t'.record node x).dfsNumOut + 1 < c'
  nested : ∀ d ∈ rest, ∀ e ∈ rest, ∀ x y, x ≤ n → y ≤ n → Anc imm d x → Anc imm e y →
    (Within t' node x y ↔ Anc imm x y)

/-- The children of a number have different descendants. -/
theorem eq_of_anc_of_kids (htree : IsTree n imm) {d e x : Nat} (hd : d ∈ kids imm n k) (he : e ∈ kids imm n k)
    (hx : x ≤ n) (hdx : Anc imm d x) (hex : Anc imm e x) : d = e := by
  obtain ⟨hd1, hdn, rfl⟩ := mem_kids.mp hd
  obtain ⟨he1, hen, heq⟩ := mem_kids.mp he
  have hdk := htree d hd1 hdn
  have hek := htree e he1 hen
  by_contra hne
  obtain hlt | hlt := lt_or_gt_of_ne hne
  · have hanc := (hdx.of_le hex htree hx hlt.le).par_of_ne hne
    have := hanc.2.le htree (by omega)
    omega
  have hanc := (hex.of_le hdx htree hx hlt.le).par_of_ne (Ne.symm hne)
  have := hanc.2.le htree (by omega)
  omega

omit [DecidableEq B] in
/-- The whole subtree of `k`, once `k` has been left. -/
theorem Timed.whole {t' : DomTree B} {c' : Nat} (h : Timed node imm n t t' k (kids imm n k) c c') (htree : IsTree n imm)
    (hin : (t.record node k).dfsNumIn < c) :
    (∀ x, x ≤ n → Anc imm k x → (t.record node k).dfsNumIn ≤ (t'.record node x).dfsNumIn ∧
      (t'.record node x).dfsNumIn < (t'.record node x).dfsNumOut ∧ (t'.record node x).dfsNumOut < c') ∧
    ∀ x y, x ≤ n → y ≤ n → Anc imm k x → Anc imm k y → (Within t' node x y ↔ Anc imm x y) := by
  have hbelow {x : Nat} (hx : x ≤ n) (hanc : Anc imm k x) (hne : x ≠ k) : ∃ d ∈ kids imm n k, Anc imm d x := by
    induction hanc with
    | refl => exact absurd rfl hne
    | @up v hv hup ih =>
      have := htree v hv hx
      by_cases hvk : imm v = k
      · exact ⟨v, mem_kids.mpr ⟨hv, hx, hvk⟩, .refl⟩
      obtain ⟨d, hd, hanc⟩ := ih (by omega) hvk
      exact ⟨d, hd, .up hv hanc⟩
  have hlt := h.lt
  have hout := h.out_eq
  constructor
  · intro x hx hanc
    by_cases hxk : x = k
    · rw [hxk, h.in_eq]
      omega
    obtain ⟨d, hd, hdx⟩ := hbelow hx hanc hxk
    have := h.inside d hd x hx hdx
    omega
  intro x y hx hy hkx hky
  have hkx' := hkx.le htree hx
  have hky' := hky.le htree hy
  by_cases hxk : x = k
  · subst hxk
    refine ⟨fun _ => hky, fun _ => ?_⟩
    by_cases hyk : y = x
    · rw [hyk]
      exact ⟨le_rfl, le_rfl⟩
    obtain ⟨d, hd, hdy⟩ := hbelow hy hky hyk
    have := h.inside d hd y hy hdy
    rw [Within, h.in_eq]
    omega
  obtain ⟨d, hd, hdx⟩ := hbelow hx hkx hxk
  have hx' := h.inside d hd x hx hdx
  by_cases hyk : y = k
  · subst hyk
    constructor
    · intro hwithin
      rw [Within, h.in_eq] at hwithin
      omega
    intro hxy
    have := hxy.le htree hy
    omega
  obtain ⟨e, he, hey⟩ := hbelow hy hky hyk
  exact h.nested d hd e he x y hx hy hdx hey

/-- **The walk** leaves the subtree of `k` with the intervals of its numbers set. -/
theorem numberLoop_spec (hdis : Distinct node n) (htree : IsTree n imm) (hk1 : 1 ≤ k) (hk : k ≤ n)
    (h : IsTreeOf node imm n t) (rest : List Nat) (hrest : ∀ d ∈ rest, d ∈ kids imm n k) (hnodup : rest.Nodup)
    (c : Nat) :
    ∃ steps t' c', (∀ fuel workStack, DomTree.numberLoop (fuel + steps) t ((node k, rest.map node) :: workStack) c =
          DomTree.numberLoop fuel t' workStack c') ∧ Timed node imm n t t' k rest c c' := by
  induction hm : n - k using Nat.strong_induction_on generalizing k t rest c with
  | _ m ih =>
    subst hm
    induction rest generalizing t c with
    | nil =>
      -- no child is left: `k` is left too
      generalize ht' : t.setNode (node k) { t.record node k with dfsNumOut := c } = t'
      have hrecord {j : Nat} (hj1 : 1 ≤ j) (hj : j ≤ n) : t'.record node j =
          if j = k then { t.record node k with dfsNumOut := c } else t.record node j := by
        rw [← ht']
        exact t.record_setNode hdis hk1 hk hj1 hj _
      refine ⟨1, t', c + 1, fun fuel workStack => ?_, ?_⟩
      · rw [map_nil, DomTree.numberLoop, h.isSome k hk1 hk, bind_some, ht']
      refine ⟨?_, Nat.lt_succ_self c, ?_, ?_, fun j hj1 hj hjk _ => ?_,
        fun d hd => absurd hd not_mem_nil, fun d hd => absurd hd not_mem_nil⟩
      · rw [← ht']
        exact h.setNode hdis hk1 hk rfl rfl rfl rfl htree
      · rw [hrecord hk1 hk, if_pos rfl]
      · rw [hrecord hk1 hk, if_pos rfl]
      rw [hrecord hj1 hj, if_neg hjk]
    | cons d rest ihrest =>
      have hd := hrest d mem_cons_self
      obtain ⟨hd1, hdn, rfl⟩ := mem_kids.mp hd
      obtain ⟨-, hkd⟩ := htree d hd1 hdn
      obtain ⟨hdrest, hnodup⟩ := nodup_cons.mp hnodup
      -- `d` is entered
      generalize ht1 : t.setNode (node d) { t.record node d with dfsNumIn := c } = t1
      have hrecord1 {j : Nat} (hj1 : 1 ≤ j) (hj : j ≤ n) : t1.record node j =
          if j = d then { t.record node d with dfsNumIn := c } else t.record node j := by
        rw [← ht1]
        exact t.record_setNode hdis (by omega) hdn hj1 hj _
      have h1 : IsTreeOf node imm n t1 := by
        rw [← ht1]
        exact h.setNode hdis (by omega) hdn rfl rfl rfl rfl htree
      have hin1 : (t1.record node d).dfsNumIn = c := by rw [hrecord1 (by omega) hdn, if_pos rfl]
      -- its subtree is walked
      obtain ⟨steps1, t2, c1, hrun1, h2⟩ := ih (n - d) (by omega) (by omega) hdn h1
        (kids imm n d) (fun _ => id) (nodup_kids imm n d) (c + 1) rfl
      obtain ⟨hinside, hnested⟩ := h2.whole htree (by omega)
      rw [hin1] at hinside
      -- then the other children
      obtain ⟨steps2, t3, c', hrun2, h3⟩ := ihrest h2.tree (fun e he => hrest e (mem_cons_of_mem d he)) hnodup c1
      have hlt1 := h2.lt
      have hlt2 := h3.lt
      have hapart {x e : Nat} (hx : x ≤ n) (hdx : Anc imm d x) (he : e ∈ rest) : ¬Anc imm e x := by
        intro hex
        have heq := eq_of_anc_of_kids htree hd (hrest e (mem_cons_of_mem d he)) hx hdx hex
        exact hdrest (heq ▸ he)
      have hkept {x : Nat} (hx : x ≤ n) (hdx : Anc imm d x) : t3.record node x = t2.record node x := by
        have hdx' := hdx.le htree hx
        exact h3.frame x (by omega) hx (by omega) fun e he => hapart hx hdx he
      have hsub {x : Nat} (hx : x ≤ n) (hdx : Anc imm d x) : c ≤ (t3.record node x).dfsNumIn ∧
          (t3.record node x).dfsNumIn < (t3.record node x).dfsNumOut ∧
          (t3.record node x).dfsNumOut < c1 := by
        rw [hkept hx hdx]
        exact hinside x hx hdx
      refine ⟨steps2 + steps1 + 1, t3, c', fun fuel workStack => ?_, ?_⟩
      · rw [map_cons, ← Nat.add_assoc, ← Nat.add_assoc, DomTree.numberLoop,
          h.isSome d (by omega) hdn, bind_some, ht1, h.children d (by omega) hdn, hrun1, hrun2]
      refine ⟨h3.tree, by omega, h3.out_eq, ?_, fun j hj1 hj hjk hnot => ?_, fun e he x hx hex => ?_,
        fun e he e' he' x y hx hy hex hey => ?_⟩
      · have hnd : ∀ e ∈ kids imm n d, ¬Anc imm e (imm d) := by
          intro e he hanc
          obtain ⟨he1, hen, hed⟩ := mem_kids.mp he
          have := htree e he1 hen
          have := hanc.le htree hk
          omega
        rw [h3.in_eq, h2.frame _ hk1 hk (by omega) hnd, hrecord1 hk1 hk, if_neg (by omega)]
      · have hjd : j ≠ d := by
          rintro rfl
          exact hnot j mem_cons_self .refl
        have hnd : ∀ e ∈ kids imm n d, ¬Anc imm e j := by
          intro e he hanc
          obtain ⟨he1, -, hed⟩ := mem_kids.mp he
          refine hnot d mem_cons_self (Anc.trans (.up he1 ?_) hanc)
          rw [hed]
          exact .refl
        rw [h3.frame j hj1 hj hjk fun e he => hnot e (mem_cons_of_mem d he),
          h2.frame j hj1 hj hjd hnd, hrecord1 hj1 hj, if_neg hjd]
      · obtain rfl | he := mem_cons.mp he
        · have := hsub hx hex
          omega
        have := h3.inside e he x hx hex
        omega
      obtain rfl | hrest1 := mem_cons.mp he
      · obtain rfl | hrest2 := mem_cons.mp he'
        · rw [Within, hkept hx hex, hkept hy hey]
          exact hnested x y hx hy hex hey
        -- the walk had left `x` before it entered `y`
        have hx' := hsub hx hex
        have hy' := h3.inside e' hrest2 y hy hey
        refine ⟨fun hwithin => ?_, fun hxy => ?_⟩
        · rw [Within] at hwithin
          omega
        exact absurd hey (hapart hy (hex.trans hxy) hrest2)
      obtain rfl | hrest2 := mem_cons.mp he'
      · have hx' := h3.inside e hrest1 x hx hex
        have hy' := hsub hy hey
        refine ⟨fun hwithin => ?_, fun hxy => ?_⟩
        · rw [Within] at hwithin
          omega
        exact absurd (hex.trans hxy) (hapart hy hey hrest1)
      exact h3.nested e hrest1 e' hrest2 x y hx hy hex hey

/-- **`updateDFSNumbers`**: the intervals are nested as the tree is. -/
theorem updateDFSNumbers_spec (hdis : Distinct node n) (htree : IsTree n imm) (hn : 1 ≤ n) (h : IsTreeOf node imm n t) :
    ∃ t' N, (∀ fuel, N ≤ fuel → t.updateDFSNumbers fuel = some t') ∧ IsTreeOf node imm n t' ∧
      ∀ x y, 1 ≤ x → x ≤ n → 1 ≤ y → y ≤ n → (Within t' node x y ↔ Anc imm x y) := by
  generalize ht1 : t.setNode (node 1) { t.record node 1 with dfsNumIn := 0 } = t1
  have h1 : IsTreeOf node imm n t1 := by
    rw [← ht1]
    exact h.setNode hdis le_rfl hn rfl rfl rfl rfl htree
  have hin1 : (t1.record node 1).dfsNumIn = 0 := by rw [← ht1, t.record_setNode hdis le_rfl hn le_rfl hn, if_pos rfl]
  obtain ⟨steps, t', c', hrun, h'⟩ := numberLoop_spec hdis htree le_rfl hn h1 (kids imm n 1)
    (fun _ => id) (nodup_kids imm n 1) 1
  obtain ⟨-, hnested⟩ := h'.whole htree (by omega)
  refine ⟨t', steps + 1, fun fuel hfuel => ?_, h'.tree, fun x y hx1 hx hy1 hy =>
    hnested x y hx hy (Anc.root htree hx1 hx) (Anc.root htree hy1 hy)⟩
  obtain ⟨fuel, rfl⟩ : ∃ f, fuel = f + 1 + steps := ⟨fuel - 1 - steps, by omega⟩
  rw [DomTree.updateDFSNumbers, h.root]
  simp only []
  rw [h.isSome 1 le_rfl hn, bind_some, ht1, h.children 1 le_rfl hn, hrun]
  rfl

end Rpcsx.Shader
