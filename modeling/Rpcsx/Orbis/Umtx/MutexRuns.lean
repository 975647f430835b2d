import Rpcsx.Lib.Run
import Rpcsx.Orbis.Umtx.Mutex

/-!
# Runs of user-space mutexes

The word of a mutex names the thread that holds it, and it carries the contested bit whenever a node is
left in the queue once the call that has the chain's mutex is done with what it is about to do
(`remaining`): a thread that has just been added may be taken off again, and an unlock that has freed
the word for its last sleeper still has to wake it. A contested word cannot be changed by the guest,
which is what carries the rest.
-/

namespace Rpcsx.Orbis.Umtx

open Lib Function List

/-! ## Words -/

theorem ownerOf_zero : ownerOf 0 = 0 := rfl

theorem ownerOf_contested : ownerOf kUmutexContested = 0 := by decide

theorem ownerOf_mark (word : Nat) : ownerOf (mark word) = ownerOf word := by
  simp only [ownerOf, mark, kUmutexContested]
  omega

theorem contested_mark (word : Nat) : Contested (mark word) := Nat.le_add_left _ _

namespace Tids

variable {T : Type} (tids : Tids T)

theorem ownerOf_tid (t : T) : ownerOf (tids.tid t) = tids.tid t := Nat.mod_eq_of_lt (tids.lt t)

theorem not_contested (t : T) : ¬ Contested (tids.tid t) := Nat.not_le_of_lt (tids.lt t)

theorem ne_zero (t : T) : tids.tid t ≠ 0 := (tids.pos t).ne'

end Tids

/-! ## The invariant -/

/-- The nodes of a mutex that the thread with the chain's mutex will leave in the queue. -/
def Pc.remaining {M : Type} [DecidableEq M] (pc : Pc M) (m : M) (nodes : List Nat) : List Nat :=
  match pc with
  | .lockMark c _ node => if c.m = m then nodes.filter (· ≠ node) else nodes
  | .unlockNotify m' _ => if m' = m then nodes.tail else nodes
  | .wakeNotify m' count owner =>
    if m' = m ∧ count ≠ 0 ∧ ownerOf owner = 0 then nodes.tail else nodes
  | _ => nodes

namespace Mutexes

variable {M T : Type} [DecidableEq M] (tids : Tids T) {pc : Pc M}

/-- What a thread with the chain's mutex knows at each place. -/
def AtPc (s : Mutexes M T) (t : T) : Pc M → Prop
  | .lockMark _ _ node => s.chain.thr node = some t
  | .unlockFast m owner => s.owner m = owner ∧ owner = tids.tid t
  | .unlockCas m owner => s.owner m = owner ∧ ownerOf owner = tids.tid t
  | .unlockNotify _ ok => ok = true
  | .wakeCas m count => count = s.chain.count m ∧ count ≤ 1 ∧
    (count = 1 → s.owner m = kUmutexContested)
  | _ => True

def remaining (s : Mutexes M T) (m : M) : List Nat :=
  match s.holder with
  | none => s.chain.nodes m
  | some t => (s.pc t).remaining m (s.chain.nodes m)

structure Inv (s : Mutexes M T) : Prop where
  /-- The word names the thread that holds the mutex. -/
  holds : ∀ t m, s.holds t m = true ↔ ownerOf (s.owner m) = tids.tid t
  inside : ∀ t, (s.pc t).inside = true ↔ s.holder = some t
  /-- Whoever is in the queue to stay sleeps on a contested word. -/
  contested : ∀ m, s.remaining m ≠ [] → Contested (s.owner m)
  word : ∀ m, s.owner m < 2 * kUmutexContested
  atPc : ∀ t, s.AtPc tids t (s.pc t)

theorem Pc.remaining_outside (h : pc.inside = false) (m : M) (nodes : List Nat) : pc.remaining m nodes = nodes := by
  cases pc <;> first | rfl | cases h

variable {s : Mutexes M T} {t : T} {chain : UmtxChain M T} {m : M} {word node : Nat}

theorem atPc_outside (h : pc.inside = false) : s.AtPc tids t pc := by
  cases pc <;> trivial

theorem init_inv (tids : Tids T) : Inv tids (init : Mutexes M T) := by
  refine ⟨fun t m => ⟨nofun, fun h => absurd h.symm (tids.ne_zero t)⟩, fun t => ⟨nofun, nofun⟩,
    fun m hne => absurd rfl hne, fun m => ?_, fun t => trivial⟩
  change 0 < 2 * kUmutexContested
  decide

theorem contested_store (hself : pc.remaining m (s.chain.nodes m) ≠ [] → Contested word)
    (hothers : ∀ m', m' ≠ m → pc.remaining m' (s.chain.nodes m') ≠ [] → Contested (s.owner m')) :
    ∀ m', pc.remaining m' (s.chain.nodes m') ≠ [] → Contested ((s.store m word).owner m') := by
  intro m' hne
  by_cases hm : m' = m
  · subst hm
    simpa [store] using hself hne
  simpa [store, update_of_ne hm] using hothers m' hm hne

theorem nodes_ne_nil_of_erase (hne : (chain.erase node).nodes m ≠ []) : chain.nodes m ≠ [] := by
  rw [UmtxChain.nodes_erase] at hne
  intro hnil
  rw [hnil, filter_nil] at hne
  exact hne rfl

/-- Whoever is left by a notification was not at the head of the queue. -/
theorem tail_ne_nil {m' : M} (hne : (chain.notifyOne m).nodes m' ≠ []) :
    (if m = m' then (chain.nodes m').tail else chain.nodes m') ≠ [] := by
  obtain ⟨node, hnode⟩ := exists_mem_of_ne_nil _ hne
  split
  · next hm =>
    subst hm
    exact ne_nil_of_mem (UmtxChain.nodes_notifyOne_self _ _ hnode)
  exact ne_nil_of_mem (UmtxChain.nodes_notifyOne_subset _ _ _ hnode)

namespace Inv

variable {tids} {s s' : Mutexes M T} {t : T} {pc : Pc M}

section

variable (h : Inv tids s)

include h

theorem outside_of_ne {t' : T} (hne : s.holder ≠ some t') : (s.pc t').inside = false := by
  rw [Bool.eq_false_iff]
  exact fun hin => hne ((h.inside t').mp hin)

/-- What the thread with the chain's mutex knows; what it leaves in the queue sleeps on a contested
word. -/
theorem at_pc (hpc : s.pc t = pc) (hin : pc.inside) : s.holder = some t ∧ s.AtPc tids t pc ∧
      ∀ m, pc.remaining m (s.chain.nodes m) ≠ [] → Contested (s.owner m) := by
  have ht : s.holder = some t := (h.inside t).mp (by rw [hpc]; exact hin)
  have hat := h.atPc t
  have hcon := h.contested
  simp only [remaining, ht] at hcon
  rw [hpc] at hat hcon
  exact ⟨ht, hat, hcon⟩

theorem word_store (hword : word < 2 * kUmutexContested) : ∀ m', (s.store m word).owner m' < 2 * kUmutexContested := by
  intro m'
  by_cases hm : m' = m
  · subst hm
    simpa [store] using hword
  simpa [store, update_of_ne hm] using h.word m'

/-- The word changes, and names the same thread. -/
theorem holds_store (hword : ownerOf word = ownerOf (s.owner m)) :
    ∀ t' m', s.holds t' m' ↔ ownerOf ((s.store m word).owner m') = tids.tid t' := by
  intro t' m'
  rw [h.holds]
  by_cases hm : m' = m
  · subst hm
    simp [store, hword]
  simp [store, update_of_ne hm]

variable [DecidableEq T]

variable (pc) in
/-- **Moves of the thread that has the chain's mutex**, or takes it: it is enough to look at that
thread, since no other one is inside. -/
theorem move (hholder : s.holder = some t ∨ s.holder = none) (hpc : s'.pc = update s.pc t pc)
    (hholder' : s'.holder = if pc.inside then some t else none)
    (hholds : ∀ t m, s'.holds t m ↔ ownerOf (s'.owner m) = tids.tid t)
    (hcon : ∀ m, pc.remaining m (s'.chain.nodes m) ≠ [] → Contested (s'.owner m))
    (hword : ∀ m, s'.owner m < 2 * kUmutexContested) (hat : s'.AtPc tids t pc) : Inv tids s' := by
  have hothers : ∀ t', t' ≠ t → (s.pc t').inside = false := fun t' hne => by
    refine h.outside_of_ne fun heq => ?_
    rcases hholder with hs | hs
    · exact hne (Option.some.inj (heq.symm.trans hs))
    rw [hs] at heq
    cases heq
  refine ⟨hholds, fun t' => ?_, fun m => ?_, hword, fun t' => ?_⟩
  · rw [hpc, hholder']
    by_cases hself : t' = t
    · subst hself
      rw [update_self]
      cases pc.inside <;> simp
    rw [update_of_ne hself, hothers t' hself]
    cases pc.inside <;> simp [Ne.symm hself]
  · rw [remaining, hholder']
    cases hin : pc.inside with
    | true =>
      rw [if_pos rfl, hpc]
      dsimp only
      rw [update_self]
      exact hcon m
    | false =>
      have := hcon m
      rw [Pc.remaining_outside hin] at this
      exact this
  rw [hpc]
  by_cases hself : t' = t
  · subst hself
    rw [update_self]
    exact hat
  rw [update_of_ne hself]
  exact atPc_outside tids (hothers t' hself)

/-- The thread goes on, and has changed at most the queue. -/
theorem goto (ht : s.holder = some t) (hin : pc.inside)
    (hcon : ∀ m, pc.remaining m (chain.nodes m) ≠ [] → Contested (s.owner m))
    (hat : ({ s with chain } : Mutexes M T).AtPc tids t pc) : Inv tids ({ s with chain }.goto t pc) := by
  refine h.move _ (.inl ht) rfl ?_ h.holds hcon h.word hat
  rw [if_pos hin]
  exact ht

/-- The thread returns, and has changed at most the queue. -/
theorem leave (ht : s.holder = some t) (result : Option ErrorCode)
    (hcon : ∀ m, chain.nodes m ≠ [] → Contested (s.owner m)) : Inv tids ({ s with chain }.leave t result) :=
  h.move (.done result) (.inl ht) rfl rfl h.holds hcon h.word trivial

/-- The thread takes the chain's mutex. -/
theorem enter (hstep : s.enter t pc = some s') (hin : pc.inside)
    (hrem : ∀ m nodes, pc.remaining m nodes = nodes) (hat : s.AtPc tids t pc) : Inv tids s' := by
  rw [Mutexes.enter] at hstep
  split at hstep
  · next hfree =>
    cases hstep
    refine h.move _ (.inr hfree) rfl ?_ h.holds (fun m hne => h.contested m ?_) h.word hat
    · rw [if_pos hin]
    rw [hrem] at hne
    rwa [remaining, hfree]
  · cases hstep

/-! ### Changes of the word -/

variable {value : Bool}

/-- A mutex that no other thread has before or after the exchange. -/
theorem holds_set (hbefore : ∀ t', t' ≠ t → ownerOf (s.owner m) ≠ tids.tid t')
    (hafter : ∀ t', t' ≠ t → ownerOf word ≠ tids.tid t') (hself : value ↔ ownerOf word = tids.tid t) :
    ∀ t' m', ((s.store m word).setHolds t m value).holds t' m' ↔ ownerOf ((s.store m word).owner m') = tids.tid t' := by
  intro t' m'
  by_cases ht : t' = t
  · subst ht
    by_cases hm : m' = m
    · subst hm
      simpa [store, setHolds] using hself
    simpa [store, setHolds, update_of_ne hm] using h.holds t' m'
  by_cases hm : m' = m
  · subst hm
    simp [store, setHolds, update_of_ne ht, h.holds, hbefore t' ht, hafter t' ht]
  simpa [store, setHolds, update_of_ne hm, update_of_ne ht] using h.holds t' m'

/-- A mutex that no one holds is taken. -/
theorem holds_take (hfree : ownerOf (s.owner m) = 0) (hword : ownerOf word = tids.tid t) :
    ∀ t' m', ((s.store m word).setHolds t m true).holds t' m' ↔ ownerOf ((s.store m word).owner m') = tids.tid t' := by
  refine h.holds_set (fun t' _ => ?_) (fun t' hne => ?_) (by simp [hword])
  · rw [hfree]
    exact (tids.ne_zero t').symm
  rw [hword]
  exact fun heq => hne (tids.inj _ _ heq.symm)

/-- The thread that holds a mutex releases it. -/
theorem holds_release (hown : ownerOf (s.owner m) = tids.tid t) (hword : ownerOf word = 0) :
    ∀ t' m', ((s.store m word).setHolds t m false).holds t' m' ↔ ownerOf ((s.store m word).owner m') = tids.tid t' := by
  refine h.holds_set (fun t' hne => ?_) (fun t' _ => ?_) ?_
  · rw [hown]
    exact fun heq => hne (tids.inj _ _ heq.symm)
  · rw [hword]
    exact (tids.ne_zero t').symm
  simpa [hword] using (tids.ne_zero t).symm

/-! ### The steps of `do_lock_normal` -/

/-- The exchange of a free word takes the mutex. -/
theorem take (ht : s.holder = some t)
    (hcon : ∀ m, s.chain.nodes m ≠ [] → Contested (s.owner m)) (hfree : ownerOf (s.owner m) = 0)
    (hword : ownerOf word = tids.tid t) (hbound : word < 2 * kUmutexContested)
    (hmark : Contested (s.owner m) → Contested word) :
    Inv tids (((s.store m word).setHolds t m true).leave t none) := by
  refine h.move (.done none) (.inl ht) rfl rfl (h.holds_take hfree hword) ?_ (h.word_store hbound) trivial
  refine contested_store (s := s) (fun hne => hmark ?_) fun m' _ hne => ?_
  · exact hcon m hne
  · exact hcon m' hne

section

variable {c : LockCall M} {error : Option ErrorCode} (hstep : s.advance tids t = some s')
include hstep

theorem lockLoop (hpc : s.pc t = .lockLoop c error) : Inv tids s' := by
  obtain ⟨ht, -, hcon⟩ := h.at_pc hpc rfl
  simp only [advance, hpc] at hstep
  split at hstep
  · split at hstep
    · cases hstep
      exact h.leave ht none hcon
    · cases hstep
      exact h.goto ht rfl hcon trivial
  split at hstep
  · next hzero =>
    cases hstep
    refine h.take ht hcon (by rw [hzero, ownerOf_zero]) (tids.ownerOf_tid t) ?_ fun hcont => ?_
    · have := tids.lt t
      omega
    rw [hzero] at hcont
    exact absurd hcont (by decide)
  split at hstep
  · cases hstep
    exact h.goto ht rfl hcon trivial
  · cases hstep
    exact h.goto ht rfl hcon trivial

theorem lockContested (hpc : s.pc t = .lockContested c error) : Inv tids s' := by
  obtain ⟨ht, -, hcon⟩ := h.at_pc hpc rfl
  simp only [advance, hpc] at hstep
  split at hstep
  · next hword =>
    cases hstep
    refine h.take ht hcon (by rw [hword, ownerOf_contested]) ?_ ?_ fun _ => contested_mark _
    · rw [ownerOf_mark, tids.ownerOf_tid]
    simp only [mark, kUmutexContested]
    omega
  · cases hstep
    exact h.goto ht rfl hcon trivial

variable {owner : Nat}

theorem lockBusy (hpc : s.pc t = .lockBusy c error owner) : Inv tids s' := by
  obtain ⟨ht, -, hcon⟩ := h.at_pc hpc rfl
  simp only [advance, hpc] at hstep
  split at hstep
  · cases hstep
    exact h.leave ht _ hcon
  split at hstep
  · cases hstep
    exact h.leave ht _ hcon
  split at hstep
  · cases hstep
    exact h.leave ht _ hcon
  · cases hstep
    refine h.goto ht rfl (fun m hne => hcon m ?_) (s.chain.thr_enqueue c.m t)
    -- without the node that was added the queue is what it was
    rw [UmtxChain.nodes_enqueue] at hne
    simp only [Pc.remaining] at hne ⊢
    by_cases hm : c.m = m
    · rw [if_pos hm, if_pos hm, filter_append] at hne
      intro hnil
      simp [hnil] at hne
    rwa [if_neg hm, if_neg hm] at hne

variable {count : Nat}

theorem lockMark (hpc : s.pc t = .lockMark c owner node) : Inv tids s' := by
  obtain ⟨ht, (hthr : s.chain.thr node = some t), hcon⟩ := h.at_pc hpc rfl
  simp only [Pc.remaining] at hcon
  simp only [advance, hpc] at hstep
  split at hstep
  · next hword =>
    cases hstep
    refine h.move (.lockSleep c node) (.inl ht) rfl rfl
      (h.holds_store (by rw [ownerOf_mark, hword])) ?_ (h.word_store ?_) trivial
    · refine contested_store (fun _ => contested_mark owner) fun m' hm hne => hcon m' ?_
      rwa [if_neg (Ne.symm hm)]
    simp only [mark, kUmutexContested]
    omega
  · cases hstep
    refine h.goto ht rfl (fun m hne => hcon m ?_) trivial
    split
    · rwa [UmtxChain.nodes_erase] at hne
    · exact nodes_ne_nil_of_erase hne

theorem lockWoken (hpc : s.pc t = .lockWoken c error node) : Inv tids s' := by
  obtain ⟨ht, -, hcon⟩ := h.at_pc hpc rfl
  simp only [advance, hpc] at hstep
  cases hstep
  refine h.goto ht rfl (fun m hne => hcon m ?_) trivial
  simp only [Pc.remaining] at hne ⊢
  split at hne
  · exact nodes_ne_nil_of_erase hne
  · exact hne

/-! ### The steps of `do_unlock_normal` -/

theorem unlockLoad (hpc : s.pc t = .unlockLoad m) : Inv tids s' := by
  obtain ⟨ht, -, hcon⟩ := h.at_pc hpc rfl
  simp only [advance, hpc] at hstep
  split at hstep
  · cases hstep
    exact h.leave ht _ hcon
  · next hown =>
    rw [not_not] at hown
    split at hstep
    · cases hstep
      exact h.goto ht rfl hcon ⟨rfl, hown⟩
    · next hcont =>
      cases hstep
      refine h.goto ht rfl hcon ⟨rfl, ?_⟩
      rwa [ownerOf, Nat.mod_eq_of_lt (Nat.lt_of_not_le hcont)] at hown

theorem unlockFast (hpc : s.pc t = .unlockFast m owner) : Inv tids s' := by
  obtain ⟨ht, ⟨hword, hown⟩, hcon⟩ := h.at_pc hpc rfl
  simp only [advance, hpc] at hstep
  rw [if_pos hword] at hstep
  cases hstep
  refine h.move (.done none) (.inl ht) rfl rfl (h.holds_release ?_ ownerOf_zero) ?_ (h.word_store (by decide)) trivial
  · rw [hword, hown, tids.ownerOf_tid]
  refine contested_store (fun hne => ?_) fun m' _ => hcon m'
  -- the word is not contested, so no one sleeps
  have hcont := hcon m hne
  rw [hword, hown] at hcont
  exact absurd hcont (tids.not_contested t)

theorem unlockCas (hpc : s.pc t = .unlockCas m owner) : Inv tids s' := by
  obtain ⟨ht, ⟨hword, hown⟩, hcon⟩ := h.at_pc hpc rfl
  simp only [advance, hpc] at hstep
  rw [if_pos hword] at hstep
  cases hstep
  refine h.move (.unlockNotify m true) (.inl ht) rfl ht (h.holds_release ?_ ?_) ?_ (h.word_store ?_) rfl
  · rw [hword, hown]
  · split <;> decide
  · refine contested_store (fun hne => ?_) fun m' hm hne => hcon m' ?_
    · split
      · next hcount =>
        -- one sleeper at most, and it is about to be woken
        refine absurd ?_ hne
        rw [UmtxChain.count] at hcount
        simp only [Pc.remaining, if_true]
        exact length_eq_zero_iff.mp (by rw [length_tail]; omega)
      exact Nat.le_refl _
    simpa [Pc.remaining, Ne.symm hm] using hne
  split <;> decide

theorem unlockNotify {ok : Bool} (hpc : s.pc t = .unlockNotify m ok) : Inv tids s' := by
  obtain ⟨ht, -, hcon⟩ := h.at_pc hpc rfl
  simp only [advance, hpc] at hstep
  cases hstep
  exact h.leave ht _ fun m' hne => hcon m' (tail_ne_nil hne)

/-! ### The steps of `umtx_wake_umutex` -/

theorem wakeLoad (hpc : s.pc t = .wakeLoad m) : Inv tids s' := by
  obtain ⟨ht, -, hcon⟩ := h.at_pc hpc rfl
  simp only [Pc.remaining] at hcon
  simp only [advance, hpc] at hstep
  split at hstep
  · cases hstep
    exact h.leave ht _ hcon
  · next hfree =>
    rw [not_not] at hfree
    split at hstep
    · next hcount =>
      cases hstep
      refine h.goto ht rfl hcon ⟨rfl, hcount, fun hone => ?_⟩
      -- someone sleeps, so the word is contested, and no one holds the mutex
      have hcont : Contested (s.owner m) := by
        refine hcon m (ne_nil_of_length_pos ?_)
        rw [UmtxChain.count] at hone
        omega
      have hword := h.word m
      simp only [Contested, ownerOf, kUmutexContested] at *
      omega
    · cases hstep
      refine h.goto ht rfl (fun m' hne => hcon m' ?_) trivial
      simp only [Pc.remaining] at hne
      split at hne
      · exact fun hnil => hne (by rw [hnil]; rfl)
      · exact hne

theorem wakeCas (hpc : s.pc t = .wakeCas m count) : Inv tids s' := by
  obtain ⟨ht, ⟨hcount, hle, hone⟩, hcon⟩ := h.at_pc hpc rfl
  rw [UmtxChain.count] at hcount
  simp only [advance, hpc] at hstep
  split at hstep
  · next hword =>
    cases hstep
    refine h.move (.wakeNotify m count kUmutexContested) (.inl ht) rfl ht
      (h.holds_store (by rw [hword]; rfl)) ?_ (h.word_store (by decide)) trivial
    refine contested_store (fun hne => absurd ?_ hne) fun m' hm hne => hcon m' ?_
    · simp only [Pc.remaining, ownerOf_contested, true_and, and_true]
      split
      · exact length_eq_zero_iff.mp (by rw [length_tail]; omega)
      · next h0 => exact length_eq_zero_iff.mp (by omega)
    simpa [Pc.remaining, Ne.symm hm] using hne
  · next hword =>
    cases hstep
    have h0 : count = 0 := (Nat.le_one_iff_eq_zero_or_eq_one.mp hle).resolve_right fun h1 => hword (hone h1)
    refine h.goto ht rfl (fun m' hne => hcon m' ?_) trivial
    simpa [Pc.remaining, h0] using hne

theorem wakeNotify (hpc : s.pc t = .wakeNotify m count owner) : Inv tids s' := by
  obtain ⟨ht, -, hcon⟩ := h.at_pc hpc rfl
  simp only [advance, hpc] at hstep
  cases hstep
  refine h.leave ht _ fun m' hne => hcon m' ?_
  simp only [Pc.remaining]
  by_cases hnot : count ≠ 0 ∧ ownerOf owner = 0
  · rw [if_pos hnot] at hne
    simpa only [hnot, ne_eq, not_false_eq_true, and_true] using tail_ne_nil hne
  rw [if_neg hnot] at hne
  rwa [if_neg fun hm => hnot hm.2]

end

/-! ### The guest -/

/-- A thread outside moves on, and nothing that is said of the mutexes changes. -/
theorem outside (hout : (s.pc t).inside = false) (hout' : pc.inside = false) : Inv tids (s.goto t pc) := by
  have hne : s.holder ≠ some t := fun heq => by
    rw [(h.inside t).mpr heq] at hout
    cases hout
  refine ⟨h.holds, fun t' => ?_, fun m => ?_, h.word, fun t' => ?_⟩
  · by_cases hself : t' = t
    · subst hself
      simp only [Mutexes.goto, update_self, hout']
      exact ⟨nofun, fun heq => absurd heq hne⟩
    simp only [Mutexes.goto, update_of_ne hself]
    exact h.inside t'
  · have hrem : (s.goto t pc).remaining m = s.remaining m := by
      simp only [remaining, Mutexes.goto]
      cases hh : s.holder with
      | none => rfl
      | some t' =>
        have : t' ≠ t := by
          rintro rfl
          exact hne hh
        simp [update_of_ne this]
    rw [hrem]
    exact h.contested m
  by_cases hself : t' = t
  · subst hself
    simp only [Mutexes.goto, update_self]
    exact atPc_outside tids hout'
  simp only [Mutexes.goto, update_of_ne hself]
  exact h.atPc t'

/-- An exchange of the guest: the word is not contested, so no one sleeps, and no other thread counts on
it. -/
theorem guest (hout : (s.pc t).inside = false)
    (hcont : ¬ Contested (s.owner m)) (hown : ∀ t', t' ≠ t → ownerOf (s.owner m) ≠ tids.tid t')
    (hword : word < 2 * kUmutexContested) (hholds : ∀ t' m', ((s.store m word).setHolds t m value).holds t' m' ↔
      ownerOf ((s.store m word).owner m') = tids.tid t') : Inv tids ((s.store m word).setHolds t m value) := by
  refine ⟨hholds, h.inside, fun m' hne => ?_, h.word_store hword, fun t' => ?_⟩
  · by_cases hm : m' = m
    · subst hm
      exact absurd (h.contested m' hne) hcont
    simpa [setHolds, store, update_of_ne hm] using h.contested m' hne
  by_cases hself : t' = t
  · subst hself
    exact atPc_outside tids hout
  have hat := h.atPc t'
  change Mutexes.AtPc tids ((s.store m word).setHolds t m value) t' (s.pc t')
  cases hpc : s.pc t' with
  | unlockFast m' owner | unlockCas m' owner =>
    rw [hpc] at hat
    have hm : m' ≠ m := by
      rintro rfl
      exact hown t' hself (by simp only [hat.1, hat.2, tids.ownerOf_tid])
    exact ⟨(update_of_ne hm _ _).trans hat.1, hat.2⟩
  | wakeCas m' count =>
    rw [hpc] at hat
    refine ⟨hat.1, hat.2.1, fun h1 => ?_⟩
    have hm : m' ≠ m := by
      rintro rfl
      rw [hat.2.2 h1] at hcont
      exact hcont (Nat.le_refl _)
    exact (update_of_ne hm _ _).trans (hat.2.2 h1)
  | lockMark c owner node | unlockNotify m' ok =>
    rw [hpc] at hat
    exact hat
  | _ => trivial

end

end Inv

/-! ## Steps and runs -/

omit [DecidableEq M] in
theorem fromGuest_eq_some {s' s'' : Mutexes M T} (h : s.fromGuest t s' = some s'') :
    (∃ result, s.pc t = .done result) ∧ s'' = s' := by
  rw [fromGuest] at h
  split at h
  · next result hpc =>
    cases h
    exact ⟨⟨result, hpc⟩, rfl⟩
  · cases h

variable {s' : Mutexes M T} {tids : Tids T} [DecidableEq T]

theorem advance_inv (h : Inv tids s) (hstep : s.advance tids t = some s') : Inv tids s' := by
  cases hpc : s.pc t with
  | done _ | lockSleep _ _ =>
    simp only [advance, hpc] at hstep
    cases hstep
  | lockEnter _ | unlockEnter _ | wakeEnter _ =>
    simp only [advance, hpc] at hstep
    exact h.enter hstep rfl (fun _ _ => rfl) trivial
  | lockLoop c error => exact h.lockLoop hstep hpc
  | lockContested c error => exact h.lockContested hstep hpc
  | lockBusy c error owner => exact h.lockBusy hstep hpc
  | lockMark c owner node => exact h.lockMark hstep hpc
  | lockWoken c error node => exact h.lockWoken hstep hpc
  | unlockLoad m => exact h.unlockLoad hstep hpc
  | unlockFast m owner => exact h.unlockFast hstep hpc
  | unlockCas m owner => exact h.unlockCas hstep hpc
  | unlockNotify m ok => exact h.unlockNotify hstep hpc
  | wakeLoad m => exact h.wakeLoad hstep hpc
  | wakeCas m count => exact h.wakeCas hstep hpc
  | wakeNotify m count owner => exact h.wakeNotify hstep hpc

theorem step_inv {l : Label M T} (h : Inv tids s) (hstep : s.step tids l = some s') : Inv tids s' := by
  cases l with
  | lock t _ | unlock t _ | wakeUmutex t _ =>
    obtain ⟨⟨result, hpc⟩, rfl⟩ := fromGuest_eq_some hstep
    exact h.outside (by rw [hpc]; rfl) rfl
  | run t => exact advance_inv h hstep
  | wake t result =>
    rw [step] at hstep
    split at hstep
    · exact h.enter hstep rfl (fun _ _ => rfl) trivial
    · cases hstep
  | guestLock t m =>
    obtain ⟨⟨result, hpc⟩, rfl⟩ := fromGuest_eq_some hstep
    split
    · next hzero =>
      refine h.guest (by rw [hpc]; rfl) ?_ (fun t' _ => ?_) ?_ (h.holds_take (by rw [hzero]; rfl) (tids.ownerOf_tid t))
      · rw [hzero]
        decide
      · rw [hzero]
        exact (tids.ne_zero t').symm
      have := tids.lt t
      omega
    exact h
  | guestUnlock t m =>
    obtain ⟨⟨result, hpc⟩, rfl⟩ := fromGuest_eq_some hstep
    split
    · next hword =>
      have hown : ownerOf (s.owner m) = tids.tid t := by rw [hword, tids.ownerOf_tid]
      refine h.guest (by rw [hpc]; rfl) ?_ (fun t' hne => ?_) (by decide) (h.holds_release hown ownerOf_zero)
      · rw [hword]
        exact tids.not_contested t
      rw [hown]
      exact fun heq => hne (tids.inj _ _ heq.symm)
    exact h

def twoTids : Tids Bool := ⟨fun t => if t then 2 else 1, by decide, by decide, by decide⟩

def outcome (ls : List (Label Unit Bool)) : Option (Nat × List Nat × Bool) :=
  (ls.foldlM (step twoTids) init).map fun s => (s.owner (), s.chain.nodes (), s.holds false ())

end Mutexes

end Rpcsx.Orbis.Umtx
