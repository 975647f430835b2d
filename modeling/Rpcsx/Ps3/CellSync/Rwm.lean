import Rpcsx.Lib.ByteString
import Rpcsx.Lib.Run
import Rpcsx.Lib.Tally

/-!
# Read-write objects

`CellSyncRwm`: a buffer, the number of calls that read it and a flag for the one that writes. A
writer first announces itself, which turns new readers away, and copies once the readers it found
have left. A copy is made byte by byte here, so that anything else may happen in the middle of it.
A thread that is told to stop while it waits for the readers gives up its call and leaves the flag
as it is.
-/

namespace Rpcsx.Ps3.CellSync

open Lib List Option

/-! ## The control word -/

/-- `CellSyncRwm::ctrl_t`, two numbers of 16 bits. -/
@[ext] structure RwmCtrl where
  readers : Nat
  writers : Nat
  deriving DecidableEq

namespace RwmCtrl

/-- `try_read_begin`; `none` is `false`, with the word unchanged. -/
def tryReadBegin (ctrl : RwmCtrl) : Option RwmCtrl :=
  if ctrl.writers ≠ 0 then none else some { ctrl with readers := (ctrl.readers + 1) % 0x10000 }

def tryReadEnd (ctrl : RwmCtrl) : Option RwmCtrl :=
  if ctrl.readers = 0 then none else some { ctrl with readers := ctrl.readers - 1 }

def tryWriteBegin (ctrl : RwmCtrl) : Option RwmCtrl :=
  if ctrl.writers ≠ 0 then none else some { ctrl with writers := 1 }

def tryWriteNow (ctrl : RwmCtrl) : Option RwmCtrl := if ctrl = ⟨0, 0⟩ then some ⟨0, 1⟩ else none

end RwmCtrl

/-! ## Calls -/

/-- Where a thread is: not between the first and the last operation of a call, copying out with the
bytes it has, waiting for readers to leave, or copying in with the number of bytes it has copied. -/
inductive RwmPc
  | idle
  | reading (got : Bytes)
  | announced (src : Bytes)
  | writing (src : Bytes) (done : Nat)
  deriving DecidableEq

inductive RwmResult
  | ok (got : Bytes)
  | abort
  deriving DecidableEq

/-- An object and the threads that use it. Beside it stand the contents that the object has had since
it was initialized, the latest first, and the results of the reads. -/
structure RwmState (T : Type) where
  ctrl : RwmCtrl
  buffer : Bytes
  pc : T → RwmPc
  contents : List Bytes
  results : List RwmResult

/-- One step of a thread: an operation on the control word, or one byte of a copy. -/
inductive RwmCall (T : Type)
  | readBegin (t : T)
  | readByte (t : T)
  | readEnd (t : T)
  | writeBegin (t : T) (src : Bytes)
  | tryWrite (t : T) (src : Bytes)
  | drain (t : T)
  | stop (t : T)
  | writeByte (t : T)
  | writeEnd (t : T)

namespace RwmState

variable {T : Type} [DecidableEq T]

def init (buffer : Bytes) : RwmState T := ⟨⟨0, 0⟩, buffer, fun _ => .idle, [buffer], []⟩

def goto (s : RwmState T) (t : T) (pc : RwmPc) : RwmState T :=
  { s with pc := Function.update s.pc t pc }

@[simp] theorem goto_self (s : RwmState T) (t : T) (pc : RwmPc) : (s.goto t pc).pc t = pc := Function.update_self ..

theorem goto_of_ne (s : RwmState T) {t t' : T} (pc : RwmPc) (h : t' ≠ t) :
    (s.goto t pc).pc t' = s.pc t' := Function.update_of_ne h ..

def step (s : RwmState T) : RwmCall T → Option (RwmState T)
  | .readBegin t =>
    match s.pc t with
    | .idle =>
      match s.ctrl.tryReadBegin with
      | none => some s
      | some ctrl => some ({ s with ctrl }.goto t (.reading []))
    | _ => none
  | .readByte t =>
    match s.pc t with
    | .reading got => (s.buffer[got.length]?).map fun b => s.goto t (.reading (got ++ [b]))
    | _ => none
  | .readEnd t =>
    match s.pc t with
    | .reading got =>
      if got.length = s.buffer.length then
        match s.ctrl.tryReadEnd with
        | none => some ({ s with results := .abort :: s.results }.goto t .idle)
        | some ctrl => some ({ s with ctrl, results := .ok got :: s.results }.goto t .idle)
      else none
    | _ => none
  | .writeBegin t src =>
    match s.pc t with
    | .idle =>
      match s.ctrl.tryWriteBegin with
      | none => some s
      | some ctrl => some ({ s with ctrl }.goto t (.announced src))
    | _ => none
  | .tryWrite t src =>
    match s.pc t with
    | .idle =>
      match s.ctrl.tryWriteNow with
      | none => some s
      | some ctrl => some ({ s with ctrl }.goto t (.writing src 0))
    | _ => none
  | .drain t =>
    match s.pc t with
    | .announced src => if s.ctrl.readers ≠ 0 then some s else some (s.goto t (.writing src 0))
    | _ => none
  | .stop t =>
    match s.pc t with
    | .idle => some s
    | .announced _ => some (s.goto t .idle)
    | _ => none
  | .writeByte t =>
    match s.pc t with
    | .writing src done =>
      if done < s.buffer.length then
        (src[done]?).map fun b =>
          { s with buffer := s.buffer.set done b }.goto t (.writing src (done + 1))
      else none
    | _ => none
  | .writeEnd t =>
    match s.pc t with
    | .writing src done =>
      if done = s.buffer.length then
        some ({ s with ctrl := ⟨0, 0⟩, contents := src :: s.contents }.goto t .idle)
      else none
    | _ => none

end RwmState

/-! ## The invariant -/

def RwmPc.reads : RwmPc → Nat
  | .reading _ => 1
  | _ => 0

def RwmPc.writes : RwmPc → Nat
  | .announced _ | .writing _ _ => 1
  | _ => 0

def RwmPc.copiesIn : RwmPc → Bool
  | .writing _ _ => true
  | _ => false

/-- What a thread has copied, in terms of the buffer and of what it last held. -/
def RwmPc.Fits (buffer content : Bytes) : RwmPc → Prop
  | .idle => True
  | .reading got => got <+: content
  | .announced src => src.length = content.length
  | .writing src done => src.length = content.length ∧ buffer = src.take done ++ content.drop done

namespace RwmState

variable {T : Type} [DecidableEq T] [Fintype T]

/-- The object holds `content` but for what a writer has copied, and `left` calls were given up with
the flag set. -/
structure Inv (s : RwmState T) (content : Bytes) (left : Nat) : Prop where
  latest : s.contents.head? = some content
  length : s.buffer.length = content.length
  readers : s.ctrl.readers = tally RwmPc.reads s.pc
  writers : s.ctrl.writers = tally RwmPc.writes s.pc + left
  writers_le : s.ctrl.writers ≤ 1
  fits : ∀ t, (s.pc t).Fits s.buffer content
  drained : ∀ t, (s.pc t).copiesIn = true → s.ctrl.readers = 0
  whole : (∀ t, (s.pc t).copiesIn = false) → s.buffer = content
  results : ∀ r ∈ s.results, ∃ got ∈ s.contents, r = .ok got

/-- What a caller has to see to: fewer than 2^16 reads at a time, and a source of the right size. -/
def Legal (s : RwmState T) : RwmCall T → Prop
  | .readBegin _ => tally RwmPc.reads s.pc < 0xffff
  | .writeBegin _ src | .tryWrite _ src => src.length = s.buffer.length
  | _ => True

/-- No thread stops while it waits for the readers. -/
def Stays (s : RwmState T) : RwmCall T → Prop
  | .stop t => s.pc t = .idle
  | _ => True

variable {s s' : RwmState T} {content : Bytes} {left : Nat}

omit [DecidableEq T] in
theorem init_inv (buffer : Bytes) : (init buffer : RwmState T).Inv buffer 0 where
  latest := rfl
  length := rfl
  readers := (tally_eq_zero fun _ => rfl).symm
  writers := (tally_eq_zero fun _ => rfl).symm
  writers_le := Nat.zero_le 1
  fits := fun _ => trivial
  drained := nofun
  whole := fun _ => rfl
  results := nofun

variable {pc : RwmPc}

omit [Fintype T] [DecidableEq T] in
theorem writes_of_copiesIn (h : pc.copiesIn) : pc.writes = 1 := by
  cases pc <;> first | rfl | cases h

variable {t : T}

section

variable (h : s.Inv content left)

include h

/-- Beside a writer there is no other. -/
theorem Inv.writes_eq_zero {t' : T} (ht : (s.pc t).writes = 1) (hne : t' ≠ t) : (s.pc t').writes = 0 := by
  have hle := le_tallyBut RwmPc.writes s.pc hne
  have hsum := tally_eq RwmPc.writes s.pc t
  have hwriters := h.writers
  have hone := h.writers_le
  omega

theorem Inv.not_copiesIn {t' : T} (ht : (s.pc t).writes = 1) (hne : t' ≠ t) : (s.pc t').copiesIn = false := by
  have hzero := h.writes_eq_zero ht hne
  cases hcopy : (s.pc t').copiesIn with
  | false => rfl
  | true =>
    rw [writes_of_copiesIn hcopy] at hzero
    cases hzero

theorem Inv.not_copiesIn_of_free (hfree : s.ctrl.writers = 0) (t : T) : (s.pc t).copiesIn = false := by
  have hle := le_tally RwmPc.writes s.pc t
  have hwriters := h.writers
  cases hcopy : (s.pc t).copiesIn with
  | false => rfl
  | true =>
    rw [writes_of_copiesIn hcopy] at hle
    omega

/-- A thread moves on without touching the buffer. -/
theorem Inv.move (ctrl : RwmCtrl) (results : List RwmResult) {left' : Nat}
    (hreaders : ctrl.readers = tallyBut RwmPc.reads s.pc t + pc.reads)
    (hwriters : ctrl.writers = tallyBut RwmPc.writes s.pc t + pc.writes + left') (hle : ctrl.writers ≤ 1)
    (hfits : pc.Fits s.buffer content) (hdrained : pc.copiesIn → ctrl.readers = 0)
    (hothers : ∀ t', t' ≠ t → (s.pc t').copiesIn → ctrl.readers = 0) (hcopy : (s.pc t).copiesIn = false)
    (hresults : ∀ r ∈ results, ∃ got ∈ s.contents, r = .ok got) :
    ({ s with ctrl, results }.goto t pc).Inv content left' where
  latest := h.latest
  length := h.length
  readers := by
    rw [goto, tally_update]
    exact hreaders
  writers := by
    rw [goto, tally_update]
    exact hwriters
  writers_le := hle
  fits := by
    intro t'
    by_cases heq : t' = t
    · rw [heq, goto_self]
      exact hfits
    rw [goto_of_ne _ _ heq]
    exact h.fits t'
  drained := by
    intro t' ht'
    by_cases heq : t' = t
    · rw [heq, goto_self] at ht'
      exact hdrained ht'
    rw [goto_of_ne _ _ heq] at ht'
    exact hothers t' heq ht'
  whole := by
    intro hnone
    refine h.whole fun t' => ?_
    by_cases heq : t' = t
    · rw [heq]
      exact hcopy
    have ht' := hnone t'
    rwa [goto_of_ne _ _ heq] at ht'
  results := hresults

/-- The numbers of the word, with one thread set apart. -/
theorem Inv.counts (hpc : s.pc t = pc) : s.ctrl.readers = tallyBut RwmPc.reads s.pc t + pc.reads ∧
    s.ctrl.writers = tallyBut RwmPc.writes s.pc t + pc.writes + left := by
  rw [h.readers, h.writers, tally_eq RwmPc.reads s.pc t, tally_eq RwmPc.writes s.pc t, hpc]
  exact ⟨rfl, rfl⟩

variable {ctrl : RwmCtrl}

theorem Inv.readBegin (hpc : s.pc t = .idle) (hroom : tally RwmPc.reads s.pc < 0xffff)
    (hctrl : s.ctrl.tryReadBegin = some ctrl) : ({ s with ctrl }.goto t (.reading [])).Inv content left := by
  obtain ⟨hreaders, hwriters⟩ := h.counts hpc
  have hsmall := h.readers
  rw [RwmCtrl.tryReadBegin, ite_none_left_eq_some, not_not] at hctrl
  obtain ⟨hfree, hctrl⟩ := hctrl
  cases hctrl
  have hmod : (s.ctrl.readers + 1) % 0x10000 = s.ctrl.readers + 1 := Nat.mod_eq_of_lt (by omega)
  refine h.move _ s.results ?_ hwriters h.writers_le List.nil_prefix nofun ?_ (h.not_copiesIn_of_free hfree t) h.results
  · rw [hmod, hreaders]
    rfl
  intro t' _ hcopy
  rw [h.not_copiesIn_of_free hfree t'] at hcopy
  cases hcopy

variable {b : UInt8} {got : Bytes}

theorem Inv.readByte (hpc : s.pc t = .reading got)
    (hb : s.buffer[got.length]? = some b) : (s.goto t (.reading (got ++ [b]))).Inv content left := by
  obtain ⟨hreaders, hwriters⟩ := h.counts hpc
  have hreader : s.ctrl.readers ≠ 0 := by
    rw [hreaders]
    exact Nat.succ_ne_zero _
  have hnone : ∀ t', (s.pc t').copiesIn = false := by
    intro t'
    cases hcopy : (s.pc t').copiesIn with
    | false => rfl
    | true => exact absurd (h.drained t' hcopy) hreader
  have hgot : got <+: content := by
    have hfits := h.fits t
    rwa [hpc] at hfits
  refine h.move s.ctrl s.results hreaders hwriters h.writers_le ?_ nofun (fun t' _ => h.drained t') (hnone t) h.results
  -- the byte comes from a buffer that no one is writing to
  rw [h.whole hnone] at hb
  obtain ⟨rest, rfl⟩ := hgot
  rw [getElem?_append_right (Nat.le_refl _), Nat.sub_self] at hb
  cases rest with
  | nil => cases hb
  | cons x rest =>
    cases hb
    exact ⟨rest, by rw [append_assoc]; rfl⟩

/-- A read ends with the content, and it finds itself counted. -/
theorem Inv.readEnd (hpc : s.pc t = .reading got)
    (hlen : got.length = s.buffer.length) : ∃ ctrl, s.ctrl.tryReadEnd = some ctrl ∧
      ({ s with ctrl, results := .ok got :: s.results }.goto t .idle).Inv content left := by
  obtain ⟨hreaders, hwriters⟩ := h.counts hpc
  have hreader : s.ctrl.readers ≠ 0 := by
    rw [hreaders]
    exact Nat.succ_ne_zero _
  have hone : (RwmPc.reading got).reads = 1 := rfl
  obtain rfl : got = content := by
    have hfits := h.fits t
    rw [hpc] at hfits
    exact List.IsPrefix.eq_of_length hfits (hlen.trans h.length)
  refine ⟨_, if_neg hreader, h.move _ _ ?_ hwriters h.writers_le trivial nofun ?_ ?_ ?_⟩
  · rw [hreaders, hone, Nat.add_sub_cancel]
    rfl
  · intro t' _ hcopy
    exact absurd (h.drained t' hcopy) hreader
  · rw [hpc]
    rfl
  intro r hr
  rcases mem_cons.mp hr with rfl | hr
  · exact ⟨got, mem_of_mem_head? h.latest, rfl⟩
  · exact h.results r hr

variable {src : Bytes}

theorem Inv.writeBegin (hpc : s.pc t = .idle) (hsrc : src.length = s.buffer.length)
    (hctrl : s.ctrl.tryWriteBegin = some ctrl) : ({ s with ctrl }.goto t (.announced src)).Inv content left := by
  obtain ⟨hreaders, hwriters⟩ := h.counts hpc
  rw [RwmCtrl.tryWriteBegin, ite_none_left_eq_some, not_not] at hctrl
  obtain ⟨hfree, hctrl⟩ := hctrl
  cases hctrl
  have hzero : RwmPc.idle.writes = 0 := rfl
  have hone : (RwmPc.announced src).writes = 1 := rfl
  refine h.move _ s.results hreaders ?_ (Nat.le_refl 1) (hsrc.trans h.length) nofun
    (fun t' _ => h.drained t') (h.not_copiesIn_of_free hfree t) h.results
  dsimp only
  omega

theorem Inv.tryWrite (hpc : s.pc t = .idle) (hsrc : src.length = s.buffer.length)
    (hctrl : s.ctrl.tryWriteNow = some ctrl) : ({ s with ctrl }.goto t (.writing src 0)).Inv content left := by
  obtain ⟨hreaders, hwriters⟩ := h.counts hpc
  rw [RwmCtrl.tryWriteNow, ite_none_right_eq_some] at hctrl
  obtain ⟨hfree, hctrl⟩ := hctrl
  cases hctrl
  have hnone : ∀ t', (s.pc t').copiesIn = false := h.not_copiesIn_of_free (by rw [hfree])
  have hidle : RwmPc.idle.reads = 0 ∧ RwmPc.idle.writes = 0 := ⟨rfl, rfl⟩
  have hwriting : (RwmPc.writing src 0).reads = 0 ∧ (RwmPc.writing src 0).writes = 1 := ⟨rfl, rfl⟩
  rw [hfree] at hreaders hwriters
  refine h.move _ s.results ?_ ?_ (Nat.le_refl 1) ⟨hsrc.trans h.length, h.whole hnone⟩
    (fun _ => rfl) (fun _ _ _ => rfl) (hnone t) h.results
  · dsimp only at hreaders ⊢
    omega
  dsimp only at hwriters ⊢
  omega

theorem Inv.drain (hpc : s.pc t = .announced src) (hzero : s.ctrl.readers = 0) :
    (s.goto t (.writing src 0)).Inv content left := by
  obtain ⟨hreaders, hwriters⟩ := h.counts hpc
  have hsrc : src.length = content.length := by
    have hfits := h.fits t
    rwa [hpc] at hfits
  have hcopy : (s.pc t).copiesIn = false := by
    rw [hpc]
    rfl
  have hwhole : s.buffer = content := by
    refine h.whole fun t' => ?_
    by_cases heq : t' = t
    · rw [heq, hcopy]
    · exact h.not_copiesIn (by rw [hpc]; rfl) heq
  exact h.move s.ctrl s.results hreaders hwriters h.writers_le ⟨hsrc, hwhole⟩ (fun _ => hzero)
    (fun t' _ => h.drained t') hcopy h.results

/-- A call that is given up leaves the flag set for good. -/
theorem Inv.stop (hpc : s.pc t = .announced src) : (s.goto t .idle).Inv content (left + 1) := by
  obtain ⟨hreaders, hwriters⟩ := h.counts hpc
  have hidle : RwmPc.idle.writes = 0 := rfl
  have hone : (RwmPc.announced src).writes = 1 := rfl
  refine h.move s.ctrl s.results hreaders ?_ h.writers_le trivial nofun (fun t' _ => h.drained t') ?_ h.results
  · omega
  rw [hpc]
  rfl

variable {done : Nat}

omit h in
omit [Fintype T] [DecidableEq T] in
theorem set_take_append_drop (hdone : done < content.length) (hb : src[done]? = some b) :
    (src.take done ++ content.drop done).set done b = src.take (done + 1) ++ content.drop (done + 1) := by
  obtain ⟨hlt, rfl⟩ := List.getElem?_eq_some_iff.mp hb
  have hlen : (src.take done).length = done := length_take_of_le (by omega)
  rw [set_append_right _ _ (by omega), hlen, Nat.sub_self, drop_eq_getElem_cons hdone,
    set_cons_zero, ← take_concat_get' src done hlt, append_assoc]
  rfl

omit [DecidableEq T] in
theorem Inv.buffer_eq (hpc : s.pc t = .writing src done) :
    src.length = content.length ∧ s.buffer = src.take done ++ content.drop done := by
  have hfits := h.fits t
  rwa [hpc] at hfits

theorem Inv.writeByte (hpc : s.pc t = .writing src done) (hdone : done < s.buffer.length) (hb : src[done]? = some b) :
    ({ s with buffer := s.buffer.set done b }.goto t (.writing src (done + 1))).Inv content left := by
  obtain ⟨hreaders, hwriters⟩ := h.counts hpc
  have hzero := h.drained t (by rw [hpc]; rfl)
  obtain ⟨hsrc, hbuffer⟩ := h.buffer_eq hpc
  refine ⟨h.latest, ?_, ?_, ?_, h.writers_le, fun t' => ?_, fun _ _ => hzero, fun hnone => ?_, h.results⟩
  · rw [goto, length_set, h.length]
  · rw [goto, tally_update]
    exact hreaders
  · rw [goto, tally_update]
    exact hwriters
  · by_cases heq : t' = t
    · rw [heq, goto_self]
      refine ⟨hsrc, ?_⟩
      rw [goto, hbuffer]
      exact set_take_append_drop (h.length ▸ hdone) hb
    -- the others are not copying in and do not look at the buffer
    have hcopy := h.not_copiesIn (by rw [hpc]; rfl) heq
    have hfits := h.fits t'
    rw [goto_of_ne _ _ heq]
    revert hcopy hfits
    cases s.pc t' with
    | writing src done => exact fun hcopy => by cases hcopy
    | idle => exact fun _ hfits => hfits
    | reading got => exact fun _ hfits => hfits
    | announced src => exact fun _ hfits => hfits
  have ht := hnone t
  rw [goto_self] at ht
  cases ht

/-- A write ends; no one else was in a call that counts. -/
theorem Inv.writeEnd (hpc : s.pc t = .writing src done) (hdone : done = s.buffer.length) :
    ({ s with ctrl := ⟨0, 0⟩, contents := src :: s.contents }.goto t .idle).Inv src left := by
  obtain ⟨hreaders, hwriters⟩ := h.counts hpc
  have hzero := h.drained t (by rw [hpc]; rfl)
  have hle := h.writers_le
  have hone : (RwmPc.writing src done).writes = 1 := rfl
  obtain ⟨hsrc, hbuffer⟩ := h.buffer_eq hpc
  have hlen := h.length
  have hsame : s.buffer = src := by rw [hbuffer, take_of_length_le (by omega), drop_of_length_le (by omega), append_nil]
  have hidle : ∀ t', t' ≠ t → s.pc t' = .idle := by
    intro t' hne
    have hreads := le_tallyBut RwmPc.reads s.pc hne
    have hwrites := le_tallyBut RwmPc.writes s.pc hne
    have hreads' : (s.pc t').reads = 0 := by omega
    have hwrites' : (s.pc t').writes = 0 := by omega
    revert hreads' hwrites'
    cases s.pc t' with
    | idle => exact fun _ _ => rfl
    | reading got => exact fun hcon => by cases hcon
    | announced src => exact fun _ hcon => by cases hcon
    | writing src done => exact fun _ hcon => by cases hcon
  have hall : ∀ t', ({ s with ctrl := ⟨0, 0⟩, contents := src :: s.contents }.goto t .idle).pc t' = .idle := by
    intro t'
    by_cases heq : t' = t
    · rw [heq, goto_self]
    rw [goto_of_ne _ _ heq]
    exact hidle t' heq
  refine ⟨rfl, congrArg List.length hsame, ?_, ?_, Nat.zero_le 1, fun t' => ?_, fun _ _ => rfl,
    fun _ => hsame, fun r hr => ?_⟩
  · exact (tally_eq_zero fun t' => by rw [hall]; rfl).symm
  · have hleft : left = 0 := by omega
    rw [hleft]
    exact (tally_eq_zero fun t' => by rw [hall]; rfl).symm
  · rw [hall]
    trivial
  obtain ⟨got, hgot, heq⟩ := h.results r hr
  exact ⟨got, mem_cons_of_mem _ hgot, heq⟩

/-- Every step keeps the invariant, and only a writer that stops leaves the flag set. -/
theorem Inv.step {call : RwmCall T} (hok : s.Legal call) (hstep : s.step call = some s') :
    ∃ content' left', s'.Inv content' left' ∧ (s.Stays call → left' = left) := by
  unfold RwmState.step at hstep
  -- a call is only possible at its place
  split at hstep <;> split at hstep
  any_goals cases hstep
  · next hpc =>
    split at hstep <;> cases hstep
    · exact ⟨content, left, h, fun _ => rfl⟩
    · next hctrl => exact ⟨content, left, h.readBegin hpc hok hctrl, fun _ => rfl⟩
  · next hpc =>
    obtain ⟨b, hb, rfl⟩ := map_eq_some_iff.mp hstep
    exact ⟨content, left, h.readByte hpc hb, fun _ => rfl⟩
  · next hpc =>
    obtain ⟨hlen, hstep⟩ := ite_none_right_eq_some.mp hstep
    obtain ⟨ctrl, hctrl, hinv⟩ := h.readEnd hpc hlen
    rw [hctrl] at hstep
    cases hstep
    exact ⟨content, left, hinv, fun _ => rfl⟩
  · next hpc =>
    split at hstep <;> cases hstep
    · exact ⟨content, left, h, fun _ => rfl⟩
    · next hctrl => exact ⟨content, left, h.writeBegin hpc hok hctrl, fun _ => rfl⟩
  · next hpc =>
    split at hstep <;> cases hstep
    · exact ⟨content, left, h, fun _ => rfl⟩
    · next hctrl => exact ⟨content, left, h.tryWrite hpc hok hctrl, fun _ => rfl⟩
  · next hpc =>
    split at hstep <;> cases hstep
    · exact ⟨content, left, h, fun _ => rfl⟩
    · next hzero => exact ⟨content, left, h.drain hpc (not_not.mp hzero), fun _ => rfl⟩
  · exact ⟨content, left, h, fun _ => rfl⟩
  · next hpc =>
    refine ⟨content, left + 1, h.stop hpc, fun hstays => ?_⟩
    rw [Stays, hpc] at hstays
    cases hstays
  · next hpc =>
    obtain ⟨hdone, hstep⟩ := ite_none_right_eq_some.mp hstep
    obtain ⟨b, hb, rfl⟩ := map_eq_some_iff.mp hstep
    exact ⟨content, left, h.writeByte hpc hdone hb, fun _ => rfl⟩
  · next hpc =>
    obtain ⟨hdone, hstep⟩ := ite_none_right_eq_some.mp hstep
    cases hstep
    exact ⟨_, left, h.writeEnd hpc hdone, fun _ => rfl⟩

/-! ## Every run -/

/-- No read is torn or fails, and nothing is copied beside a copy to the buffer. -/
structure Untorn (s : RwmState T) : Prop where
  reads : ∀ r ∈ s.results, ∃ got ∈ s.contents, r = .ok got
  alone : ∀ t t', t' ≠ t → (s.pc t).copiesIn = true →
    (s.pc t').copiesIn = false ∧ (s.pc t').reads = 0

/-- With no call under way the counts are zero. -/
def Rests (s : RwmState T) : Prop := (∀ t, s.pc t = .idle) → s.ctrl = ⟨0, 0⟩

theorem Inv.reads_eq_zero (ht : (s.pc t).copiesIn) (t' : T) : (s.pc t').reads = 0 := by
  have hle := le_tally RwmPc.reads s.pc t'
  have hzero := h.drained t ht
  have hreaders := h.readers
  omega

theorem Inv.untorn : s.Untorn where
  reads := h.results
  alone := fun _ t' hne ht => ⟨h.not_copiesIn (writes_of_copiesIn ht) hne, h.reads_eq_zero ht t'⟩

end

omit [DecidableEq T] in
theorem Inv.rests (h : s.Inv content 0) : s.Rests := by
  intro hidle
  have hreaders : s.ctrl.readers = 0 := by
    rw [h.readers]
    exact tally_eq_zero fun t => by rw [hidle t]; rfl
  have hwriters : s.ctrl.writers = 0 := by
    rw [h.writers]
    exact tally_eq_zero fun t => by rw [hidle t]; rfl
  exact RwmCtrl.ext hreaders hwriters

/-- In every run in which no thread stops while it waits for the readers, no read is torn, nothing is
copied beside a copy to the buffer, and at rest the counts are zero. -/
theorem rwm_sound {buffer : Bytes} {calls : List (RwmCall T)}
    (hrun : Run step (fun s call => s.Legal call ∧ s.Stays call) (init buffer) calls s) : s.Untorn ∧ s.Rests := by
  obtain ⟨content, h⟩ : ∃ content, s.Inv content 0 := by
    refine hrun.invariant (P := fun s => ∃ content, s.Inv content 0) ⟨buffer, init_inv buffer⟩ ?_
    rintro s call s' ⟨content, h⟩ ⟨hok, hstays⟩ hstep
    obtain ⟨content', left', h', hleft⟩ := h.step hok hstep
    rw [hleft hstays] at h'
    exact ⟨content', h'⟩
  exact ⟨h.untorn, h.rests⟩

/-- A writer waits while two bytes are read, and the reader is told to stop when it is done. -/
theorem rwm_sound_read : ∃ s : RwmState Bool, Run step (fun s call => s.Legal call ∧ s.Stays call) (init [7, 8])
      [.readBegin true, .writeBegin false [1, 2], .readByte true, .drain false, .readByte true, .readEnd true,
        .stop true, .drain false, .writeByte false, .writeByte false, .writeEnd false] s ∧
      (s.results = [.ok [7, 8]] ∧ s.contents = [[1, 2], [7, 8]]) ∧ s.Untorn ∧ s.Rests :=
  Run.exists_and (.cons ⟨by unfold Legal; decide, trivial⟩ rfl (.cons ⟨rfl, trivial⟩ rfl
    (.cons ⟨trivial, trivial⟩ rfl (.cons ⟨trivial, trivial⟩ rfl (.cons ⟨trivial, trivial⟩ rfl
    (.cons ⟨trivial, trivial⟩ rfl (.cons ⟨trivial, rfl⟩ rfl (.cons ⟨trivial, trivial⟩ rfl
    (.cons ⟨trivial, trivial⟩ rfl (.cons ⟨trivial, trivial⟩ rfl (.cons ⟨trivial, trivial⟩ rfl (.nil _))))))))))))
    ⟨rfl, rfl⟩ rwm_sound

/-- A writer finds a reader and is told to stop; once the reader is done, no call is under way and the
flag is set. -/
theorem rwm_not_at_rest : ∃ s : RwmState Bool,
    Run step Legal (init []) [.readBegin true, .writeBegin false [], .stop false, .readEnd true] s ∧
    (∀ t, s.pc t = .idle) ∧ s.ctrl = ⟨0, 1⟩ := by
  refine ⟨_, .cons (by unfold Legal; decide) rfl (.cons rfl rfl (.cons trivial rfl (.cons trivial rfl (.nil _)))),
    ?_, rfl⟩
  intro t
  cases t <;> rfl

end RwmState

end Rpcsx.Ps3.CellSync
