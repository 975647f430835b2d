import Rpcsx.Rx.SharedMutex.Counts

/-!
# The calls of a `shared_mutex`, operation by operation

For each call: at which places it waits or has still to signal, what it knows at each place, and that
every operation keeps the rule of `Counts.Valid`.
-/

namespace Rpcsx.Rx.SharedMutex

open Counts

variable {c : Counts} {h : Hold} {value : Nat} {interrupted : Bool} {expected : Nat}

/-- What an operation that adds a writer needs: there is room for it, and the mutex is not free while a
release has still to signal. -/
structure Room (c : Counts) (value : Nat) : Prop where
  fits : value % c_sig + c_one < c_sig
  free : value = 0 → c.signalling = 0

theorem Room.of_queued {d : Counts} (hv : d.Valid) (hmanned : d.Manned) (hqueued : d.queued < 0x4000)
    (hle : c.signalling ≤ d.signalling) : Room c d.word := by
  have htoken := hv.token
  have hfew := hv.few
  simp only [Manned, c_one] at *
  constructor
  · simp only [word, c_one, c_sig]
    omega
  simp only [word, c_one, c_sig]
  omega

/-! ## `impl_wait` -/

theorem waitLoop_eq (pc : WaitPc) : waitLoop value interrupted pc = implWait value false pc := by
  cases pc with
  | check => by_cases hsig : value ≥ c_sig <;> simp only [waitLoop, implWait, hsig, if_true, if_false]
  | sleep old => cases interrupted <;> rfl

theorem implWait_kept {pc : WaitPc} (hv : (c.join h 1 0).Shows value) :
    Kept (fun _ => 1) (fun _ => 0) (fun _ _ => True) c h pc (implWait value false pc) := by
  cases pc with
  | check =>
    rw [implWait]
    split
    · next hsig => exact .takeSignal hv hsig rfl rfl trivial rfl rfl
    · exact .stay hv trivial rfl rfl
  | sleep old => exact .stay hv trivial rfl rfl

/-! ## `lock` and `unlock` -/

namespace LockPc

def queued : LockPc → Nat
  | .wait _ => 1
  | _ => 0

def Sound (_ : Hold) : LockPc → Prop
  | .steal val => signalled val = true
  | .spinSteal _ old => signalled old = true
  | _ => True

def Adds (value : Nat) : LockPc → Prop
  | .fast | .spinTry _ => value = 0
  | .steal val => value = val
  | .spinSteal _ old => value = old
  | .add => True
  | .spin _ | .wait _ => False

theorem queued_spinNext (i : Nat) : (spinNext i).queued = 0 := by
  rw [spinNext]
  split <;> rfl

theorem sound_spinNext (i : Nat) : (spinNext i).Sound h := by
  rw [spinNext]
  split <;> trivial

end LockPc

theorem implLock_kept (hv : (c.join h 0 0).Shows value) :
    Kept LockPc.queued (fun _ => 0) LockPc.Sound c h .fast (implLock value value) := by
  rw [implLock, if_neg (not_le.mpr hv.lt_c_err)]
  split
  · next hsig => exact .stay hv hsig rfl rfl
  · exact .stay hv trivial rfl rfl

theorem stealWrite_kept {pc next : LockPc} (hv : (c.join h 0 0).Shows value)
    (hroom : value = expected → Room c value) (hsig : signalled expected) (hpc : pc.queued = 0)
    (hnext : next.queued = 0) (hsound : next.Sound h) :
    Kept LockPc.queued (fun _ => 0) LockPc.Sound c h pc (stealWrite value expected next) := by
  rw [stealWrite]
  split
  · next heq =>
    subst heq
    exact .stealWrite hv (hv.signalled hsig) (hroom rfl).fits hpc rfl
  refine .stay ?_ hsound (hnext.trans hpc.symm) rfl
  rwa [hpc]

theorem lock_kept {pc : LockPc} (hv : (c.join h pc.queued 0).Shows value)
    (hroom : pc.Adds value → Room c value) (hsound : pc.Sound h) :
    Kept LockPc.queued (fun _ => 0) LockPc.Sound c h pc (lock value interrupted pc) := by
  cases pc with
  | fast =>
    by_cases hzero : value = 0
    · subst hzero
      exact .takeFree hv ((hroom rfl).free rfl) trivial rfl rfl
    simp only [lock, tryLock, if_neg hzero]
    exact implLock_kept hv
  | steal val => exact stealWrite_kept hv hroom hsound rfl rfl trivial
  | spin i =>
    rw [lock]
    split
    · exact .stay hv trivial rfl rfl
    split
    · next hsig => exact .stay hv hsig rfl rfl
    · exact .stay hv (LockPc.sound_spinNext (h := h) _) (LockPc.queued_spinNext _) rfl
  | spinTry i =>
    by_cases hzero : value = 0
    · subst hzero
      exact .takeFree hv ((hroom rfl).free rfl) trivial rfl rfl
    simp only [lock, tryLock, if_neg hzero]
    exact .stay hv (LockPc.sound_spinNext (h := h) _) (LockPc.queued_spinNext _) rfl
  | spinSteal i old =>
    exact stealWrite_kept hv hroom hsound rfl (LockPc.queued_spinNext _) (LockPc.sound_spinNext _)
  | add =>
    rw [lock]
    split
    · next hzero =>
      subst hzero
      exact .takeFree hv ((hroom trivial).free rfl) trivial rfl rfl
    rw [if_neg (not_le.mpr (hroom trivial).fits)]
    exact .enqueue hv (hroom trivial).fits rfl rfl trivial rfl rfl
  | wait pc =>
    rw [lock, waitLoop_eq]
    exact (implWait_kept hv).map (fun _ => rfl) (fun _ => rfl) fun _ _ _ => trivial

/-- The operation is one of a writer, and the call returns with the mutex. -/
structure Turn.Locks {P : Type} (turn : Turn P) : Prop where
  ne_fail : turn.flow ≠ .fail
  done : turn.flow = .done → turn.effect = .addWrite
  reads : ∀ h, (turn.effect.apply h).reads = h.reads

theorem implWait_locks (value : Nat) (pc : WaitPc) : (implWait value false pc).Locks := by
  cases pc with
  | check =>
    rw [implWait]
    split
    · exact ⟨nofun, fun _ => rfl, fun _ => rfl⟩
    · exact ⟨nofun, nofun, fun _ => rfl⟩
  | sleep old => exact ⟨nofun, nofun, fun _ => rfl⟩

theorem stealWrite_locks (expected : Nat) (next : LockPc) : (stealWrite value expected next).Locks := by
  rw [stealWrite]
  split
  · exact ⟨nofun, fun _ => rfl, fun _ => rfl⟩
  · exact ⟨nofun, nofun, fun _ => rfl⟩

theorem lock_locks (pc : LockPc) : (lock value interrupted pc).Locks := by
  cases pc with
  | fast =>
    by_cases hzero : value = 0
    · subst hzero
      exact ⟨nofun, fun _ => rfl, fun _ => rfl⟩
    simp only [lock, tryLock, if_neg hzero, implLock]
    split_ifs <;> exact ⟨nofun, nofun, fun _ => rfl⟩
  | steal val => exact stealWrite_locks val _
  | spin i =>
    rw [lock]
    split_ifs <;> exact ⟨nofun, nofun, fun _ => rfl⟩
  | spinTry i =>
    by_cases hzero : value = 0
    · subst hzero
      exact ⟨nofun, fun _ => rfl, fun _ => rfl⟩
    simp only [lock, tryLock, if_neg hzero]
    exact ⟨nofun, nofun, fun _ => rfl⟩
  | spinSteal i old => exact stealWrite_locks old _
  | add =>
    rw [lock]
    split_ifs
    · exact ⟨nofun, fun _ => rfl, fun _ => rfl⟩
    · exact ⟨nofun, nofun, fun _ => rfl⟩
    · exact ⟨nofun, nofun, fun _ => rfl⟩
  | wait pc =>
    have hlocks := implWait_locks value pc
    rw [lock, waitLoop_eq, Turn.map]
    refine ⟨fun hfail => hlocks.ne_fail ?_, fun hdone => hlocks.done ?_, hlocks.reads⟩
    · cases hflow : (implWait value false pc).flow <;> rw [hflow] at hfail <;> first | rfl | cases hfail
    · cases hflow : (implWait value false pc).flow <;> rw [hflow] at hdone <;> first | rfl | cases hdone

theorem tryLock_kept (hv : (c.join h 0 0).Shows value) (hroom : Room c value) :
    Kept LockPc.queued (fun _ => 0) LockPc.Sound c h .fast (tryLock value) := by
  rw [tryLock]
  split
  · next hzero =>
    subst hzero
    exact .takeFree hv (hroom.free rfl) trivial rfl rfl
  exact .stay hv trivial rfl rfl

namespace UnlockPc

def signalling : UnlockPc → Nat
  | .drop => 0
  | .signal => 1

/-- The thread has what it releases. -/
def Sound (has : Hold → Nat) (h : Hold) : UnlockPc → Prop
  | .drop => has h ≠ 0
  | .signal => True

end UnlockPc

theorem unlock_kept {pc : UnlockPc} (hv : (c.join h 0 pc.signalling).Shows value) (hsound : pc.Sound Hold.writes h) :
    Kept (fun _ => 0) UnlockPc.signalling (UnlockPc.Sound Hold.writes) c h pc (unlock value pc) := by
  cases pc with
  | drop =>
    have hle : c_one ≤ value := hv.c_one_le hsound
    have hlt := hv.lt_c_err
    have hsub : sub value c_one = value - c_one := sub_eq hle hlt
    rw [unlock]
    split
    · next hne =>
      rw [implUnlock, hsub, if_neg (by omega), if_pos (by omega), ← hsub]
      exact .dropWrite hv hsound trivial rfl rfl (.inr ⟨hne, rfl⟩)
    · next heq => exact .dropWrite hv hsound trivial rfl rfl (.inl ⟨not_ne_iff.mp heq, rfl⟩)
  | signal => exact .signal hv

theorem unlock_ne_fail (pc : UnlockPc) : (unlock value pc).flow ≠ .fail := by
  cases pc with
  | drop =>
    simp only [unlock, implUnlock]
    split_ifs <;> nofun
  | signal => nofun

theorem unlock_reads (pc : UnlockPc) (h : Hold) : ((unlock value pc).effect.apply h).reads = h.reads := by
  cases pc <;> rfl

/-! ## `lock_shared`, `try_lock_shared` and `unlock_shared` -/

/-- The word that `try_lock_shared` has loaded had no writer. -/
def TryPc.Low : TryPc → Prop
  | .load => True
  | .exchange old => old < c_one - 1

variable {pc : TryPc}

theorem tryLockShared_kept (hv : (c.join h 0 0).Shows value) (hmanned : c.Manned)
    (hlow : pc.Low) : Kept (fun _ => 0) (fun _ => 0) (fun _ => TryPc.Low) c h pc (tryLockShared value pc) := by
  cases pc with
  | load =>
    rw [tryLockShared]
    split
    · next hlt => exact .stay hv hlt rfl rfl
    · exact .stay hv trivial rfl rfl
  | exchange old =>
    rw [tryLockShared]
    split
    · next heq =>
      subst heq
      exact .read hv hmanned hlow
    exact .stay hv trivial rfl rfl

namespace SharedPc

def queued : SharedPc → Nat
  | .wait _ => 1
  | _ => 0

def Sound (h : Hold) : SharedPc → Prop
  | .fast pc | .spin _ pc => pc.Low
  | .steal val => signalled val = true
  | .spinSteal _ old => signalled old = true
  | .downgrade => h.writes ≠ 0
  | _ => True

theorem queued_spinNext (i : Nat) : (spinNext i).queued = 0 := by
  rw [spinNext]
  split <;> rfl

theorem sound_spinNext (i : Nat) : (spinNext i).Sound h := by
  rw [spinNext]
  split <;> trivial

end SharedPc

theorem stealRead_kept {pc next : SharedPc} (hv : (c.join h 0 0).Shows value)
    (hsig : signalled expected) (hpc : pc.queued = 0) (hnext : next.queued = 0) (hsound : next.Sound h) :
    Kept SharedPc.queued (fun _ => 0) SharedPc.Sound c h pc (stealRead value expected next) := by
  rw [stealRead]
  split
  · next heq =>
    subst heq
    exact .stealRead hv (hv.signalled hsig)
  refine .stay ?_ hsound (hnext.trans hpc.symm) rfl
  rwa [hpc]

theorem implLockShared_kept {val : Nat} (hv : (c.join h 0 0).Shows value) (hval : val < c_err) :
    Kept SharedPc.queued (fun _ => 0) SharedPc.Sound c h (.fast pc) (implLockShared value val) := by
  rw [implLockShared, if_neg (not_le.mpr hval)]
  split
  · next hsig => exact .stay hv hsig rfl rfl
  · exact .stay hv trivial rfl rfl

/-- A value that was the word, or had no writer, is not too large to be passed on. -/
theorem loaded_lt (hv : (c.join h 0 0).Shows value) (hlow : pc.Low) : add (pc.loaded value) 1 < c_err := by
  have hlt : pc.loaded value + 1 < c_err := by
    cases pc with
    | load =>
      rw [TryPc.loaded, hv.word]
      exact hv.valid.word_lt
    | exchange old =>
      simp only [TryPc.Low, TryPc.loaded, c_one, c_err] at hlow ⊢
      omega
  rw [add]
  exact lt_of_le_of_lt (Nat.mod_le _ _) hlt

theorem lockShared_kept {pc : SharedPc} (hv : (c.join h pc.queued 0).Shows value)
    (hmanned : (c.join h pc.queued 0).Manned) (hroom : pc.queued = 0 → Room c value) (hsound : pc.Sound h) :
    Kept SharedPc.queued (fun _ => 0) SharedPc.Sound c h pc (lockShared value interrupted pc) := by
  cases pc with
  | fast pc =>
    have hkept := tryLockShared_kept hv hmanned hsound
    simp only [lockShared]
    split
    · exact implLockShared_kept hv (loaded_lt hv hsound)
    · exact hkept.map (fun _ => rfl) (fun _ => rfl) fun _ _ hlow => hlow
  | steal val => exact stealRead_kept hv hsound rfl rfl trivial
  | spin i pc =>
    have hkept := tryLockShared_kept hv hmanned hsound
    simp only [lockShared]
    split
    · exact .stay hv trivial rfl rfl
    · exact hkept.map (fun _ => rfl) (fun _ => rfl) fun _ _ hlow => hlow
  | spinLoad i =>
    rw [lockShared]
    split
    · next hsig => exact .stay hv hsig rfl rfl
    · exact .stay hv (SharedPc.sound_spinNext (h := h) _) (SharedPc.queued_spinNext _) rfl
  | spinSteal i old =>
    exact stealRead_kept hv hsound rfl (SharedPc.queued_spinNext _) (SharedPc.sound_spinNext _)
  | add =>
    rw [lockShared]
    split
    · next hzero =>
      subst hzero
      exact .takeFree hv ((hroom rfl).free rfl) (Nat.succ_ne_zero _) rfl rfl
    rw [if_neg (not_le.mpr (hroom rfl).fits)]
    exact .enqueue hv (hroom rfl).fits rfl rfl trivial rfl rfl
  | wait pc =>
    cases pc with
    | check =>
      by_cases hsig : value ≥ c_sig
      · simp only [lockShared, waitLoop_eq, implWait, if_pos hsig]
        exact .takeSignal hv hsig rfl rfl (Nat.succ_ne_zero _) rfl rfl
      simp only [lockShared, waitLoop_eq, implWait, if_neg hsig]
      exact .stay hv trivial rfl rfl
    | sleep old =>
      simp only [lockShared, waitLoop_eq, implWait]
      exact .stay hv trivial rfl rfl
  | downgrade => exact .downgrade hv hsound

theorem unlockShared_kept {pc : UnlockPc} (hv : (c.join h 0 pc.signalling).Shows value)
    (hsound : pc.Sound Hold.reads h) :
    Kept (fun _ => 0) UnlockPc.signalling (UnlockPc.Sound Hold.reads) c h pc (unlockShared value pc) := by
  cases pc with
  | drop =>
    have hpos : 1 ≤ value := hv.one_le hsound
    have hlt := hv.lt_c_err
    have hsub : sub value 1 = value - 1 := sub_eq hpos hlt
    have hlast : (value - 1) % c_one = 0 ↔ value % c_one = 1 := by
      unfold c_one
      omega
    rw [unlockShared]
    split
    · next hge =>
      rw [implUnlockShared, hsub, if_neg (by omega)]
      split
      · next hzero =>
        rw [← hsub]
        exact .dropRead hv hsound trivial rfl rfl (.inl ⟨⟨hge, hlast.mp hzero⟩, rfl⟩)
      · next hne =>
        rw [← hsub]
        exact .dropRead hv hsound trivial rfl rfl (.inr ⟨fun hboth => hne (hlast.mpr hboth.2), rfl⟩)
    · next hlow =>
      exact .dropRead hv hsound trivial rfl rfl (.inr ⟨fun hboth => hlow hboth.1, rfl⟩)
  | signal => exact .signal hv

/-! ## `lock_upgrade` and `try_lock_upgrade` -/

/-- The word that `try_lock_upgrade` has loaded had one reader, and the thread is a reader. -/
def TryPc.Only (h : Hold) : TryPc → Prop
  | .load => h.reads ≠ 0
  | .exchange old => h.reads ≠ 0 ∧ old % c_one = 1

theorem tryLockUpgrade_kept (hv : (c.join h 0 0).Shows value) (hroom : Room c value)
    (hsound : pc.Only h) : Kept (fun _ => 0) (fun _ => 0) TryPc.Only c h pc (tryLockUpgrade value pc) := by
  cases pc with
  | load =>
    rw [tryLockUpgrade]
    split
    · next hmod =>
      refine .stay hv ⟨hsound, ?_⟩ rfl rfl
      simp only [add, c_one] at hmod ⊢
      omega
    exact .stay hv trivial rfl rfl
  | exchange old =>
    rw [tryLockUpgrade]
    split
    · next heq =>
      subst heq
      exact .upgrade hv hsound.1 (lt_of_le_of_lt (Nat.sub_le _ _) hroom.fits) hsound.2
    exact .stay hv trivial rfl rfl

namespace UpgradePc

def queued : UpgradePc → Nat
  | .wait _ => 1
  | _ => 0

def Sound (h : Hold) : UpgradePc → Prop
  | .tries _ pc => pc.Only h
  | .convert => h.reads ≠ 0
  | .wait _ => True

end UpgradePc

theorem TryPc.Only.reads (hsound : pc.Only h) : h.reads ≠ 0 := by
  cases pc with
  | load => exact hsound
  | exchange old => exact hsound.1

theorem lockUpgrade_kept {pc : UpgradePc} (hv : (c.join h pc.queued 0).Shows value)
    (hroom : pc.queued = 0 → Room c value) (hsound : pc.Sound h) :
    Kept UpgradePc.queued (fun _ => 0) UpgradePc.Sound c h pc (lockUpgrade value interrupted pc) := by
  cases pc with
  | tries i pc =>
    have hkept := tryLockUpgrade_kept hv (hroom rfl) hsound
    simp only [lockUpgrade]
    split
    · split
      · exact .stay hv hsound.reads rfl rfl
      · exact .stay hv hsound.reads rfl rfl
    exact hkept.map (fun _ => rfl) (fun _ => rfl) fun _ _ honly => honly
  | convert =>
    have hfits : value % c_sig + c_one - 1 < c_sig := lt_of_le_of_lt (Nat.sub_le _ _) (hroom rfl).fits
    simp only [lockUpgrade, if_neg (not_le.mpr hfits)]
    split
    · next hlast => exact .upgrade hv hsound hfits hlast
    · next hmore => exact .convert hv hsound hfits hmore trivial rfl rfl
  | wait pc =>
    rw [lockUpgrade, waitLoop_eq]
    exact (implWait_kept hv).map (fun _ => rfl) (fun _ => rfl) fun _ _ _ => trivial

end Rpcsx.Rx.SharedMutex
