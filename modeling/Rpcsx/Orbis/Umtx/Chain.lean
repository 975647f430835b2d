import Rpcsx.Orbis.Basic

/-!
# Chains of sleepers

`orbis::UmtxChain`: the threads that sleep on the user-space locks of one hash bucket. An entry of the
sleep queue is a node with the key of a lock and the thread that sleeps; a node that is taken off goes
to the spare queue and is used again, while its former sleeper may still hold a pointer to it. The
condition variable in a node is left to the steps of the threads. Nodes of one key stay in the order
in which they were added.
-/

namespace Rpcsx.Orbis.Umtx

open List Function

variable {K T : Type} [DecidableEq K]

/-- `orbis::UmtxChain`; a node is a number, and `next` the first one that was not made yet. -/
structure UmtxChain (K T : Type) where
  sleepQueue : List (K × Nat)
  spareQueue : List Nat
  thr : Nat → Option T
  next : Nat

namespace UmtxChain

def empty : UmtxChain K T := ⟨[], [], fun _ => none, 0⟩

def nodes (c : UmtxChain K T) (key : K) : List Nat :=
  (c.sleepQueue.filter fun x => x.1 = key).map Prod.snd

def count (c : UmtxChain K T) (key : K) : Nat := (c.nodes key).length

def enqueue (c : UmtxChain K T) (key : K) (t : T) : UmtxChain K T × Nat :=
  match c.spareQueue with
  | node :: rest =>
    ({ c with
        sleepQueue := c.sleepQueue ++ [(key, node)]
        spareQueue := rest
        thr := update c.thr node (some t) }, node)
  | [] =>
    ({ c with
        sleepQueue := c.sleepQueue ++ [(key, c.next)]
        thr := update c.thr c.next (some t)
        next := c.next + 1 }, c.next)

/-- `UmtxChain::erase`: a node that is in the sleep queue goes to the spare queue. -/
def erase (c : UmtxChain K T) (node : Nat) : UmtxChain K T :=
  if node ∈ c.sleepQueue.map Prod.snd then
    { c with
      sleepQueue := c.sleepQueue.filter fun x => x.2 ≠ node
      spareQueue := node :: c.spareQueue }
  else c

def wake (c : UmtxChain K T) (node : Nat) : UmtxChain K T :=
  ({ c with thr := update c.thr node none } : UmtxChain K T).erase node

/-- `UmtxChain::notify_n`, with the number of threads it wakes. -/
def notifyN (c : UmtxChain K T) (key : K) : Nat → UmtxChain K T × Nat
  | 0 => (c, 0)
  | count + 1 =>
    match c.nodes key with
    | [] => (c, 0)
    | node :: _ =>
      let (c, n) := (c.wake node).notifyN key count
      (c, n + 1)

def notifyOne (c : UmtxChain K T) (key : K) : UmtxChain K T := (c.notifyN key 1).1

/-! ## What happens to the nodes of a key -/

variable (c : UmtxChain K T)

theorem nodes_enqueue (key key' : K) (t : T) : (c.enqueue key t).1.nodes key' =
      if key = key' then c.nodes key' ++ [(c.enqueue key t).2] else c.nodes key' := by
  unfold enqueue
  split <;> by_cases h : key = key' <;> simp [nodes, filter_append, h]

omit [DecidableEq K] in
theorem thr_enqueue (key : K) (t : T) : (c.enqueue key t).1.thr (c.enqueue key t).2 = some t := by
  unfold enqueue
  split <;> exact update_self _ _ _

theorem nodes_erase (node : Nat) (key : K) :
    (c.erase node).nodes key = (c.nodes key).filter (· ≠ node) := by
  unfold erase
  split
  · simp only [nodes, List.filter_filter, List.filter_map]
    congr 1
    refine filter_congr fun x _ => ?_
    simp [Bool.and_comm]
  · next h =>
    refine (filter_eq_self.mpr fun n hn => ?_).symm
    obtain ⟨x, hx, rfl⟩ := List.mem_map.mp hn
    rw [decide_eq_true_eq]
    rintro rfl
    exact h (List.mem_map.mpr ⟨x, (mem_filter.mp hx).1, rfl⟩)

theorem nodes_wake (node : Nat) (key : K) :
    (c.wake node).nodes key = (c.nodes key).filter (· ≠ node) :=
  nodes_erase _ node key

theorem nodes_notifyOne_subset (key key' : K) : (c.notifyOne key).nodes key' ⊆ c.nodes key' := by
  rw [notifyOne, notifyN]
  cases h : c.nodes key with
  | nil => exact List.Subset.refl _
  | cons node rest =>
    dsimp only
    rw [notifyN, nodes_wake]
    exact filter_sublist.subset

/-- Waking one thread takes the first node of its key off. -/
theorem nodes_notifyOne_self (key : K) : (c.notifyOne key).nodes key ⊆ (c.nodes key).tail := by
  rw [notifyOne, notifyN]
  cases h : c.nodes key with
  | nil =>
    rw [h]
    exact List.Subset.refl _
  | cons node rest =>
    dsimp only
    rw [notifyN, nodes_wake, h, tail_cons]
    intro n hn
    obtain ⟨hmem, hne⟩ := mem_filter.mp hn
    exact (mem_cons.mp hmem).resolve_left (by simpa using hne)

end UmtxChain

end Rpcsx.Orbis.Umtx
