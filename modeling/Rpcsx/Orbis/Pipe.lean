import Rpcsx.Lib.Run
import Rpcsx.Orbis.Basic

/-!
# Pipes

The two ends that `createPipe` makes, each with a buffer of bytes its reader has not consumed.
`pipe_write` appends to the buffer of the other end, `pipe_read` takes from its own.

A pipe should be a loss-free byte stream. It is one only while the calls stay clear of three slips:
`pipe_write` makes room at the end of the buffer but copies every vector to its *begin*; it leaves
the room it made when a vector cannot be read; and `pipe_read` drops the whole buffer when it meets
an empty vector. `WriteOk` and `ReadOk` say when a call does none of these, and
`run_is_stream` is the stream law for all runs of such calls.
-/

namespace Rpcsx.Orbis

open Lib Rx List Function

inductive EvFilt where
  | read
  | write
  deriving DecidableEq, Repr

/-- `orbis::Pipe`: the buffer, and the events its emitter was sent (latest first). -/
structure Pipe where
  data : List UInt8
  emitted : List EvFilt
  deriving DecidableEq, Repr

/-! ## `pipe_read` -/

/-- What the loop of `pipe_read` does: the buffer and offset it leaves, and its stores to guest
memory. -/
structure ReadLoop where
  data : List UInt8
  offset : Nat
  stores : List (Nat × List UInt8)

def readLoop : List IoVec → List UInt8 → Nat → ReadLoop
  | [], data, offset => ⟨data, offset, []⟩
  | vec :: rest, data, offset =>
    let size := min data.length vec.len
    if size = 0 then readLoop rest [] offset
    else
      let offset := u64 (offset + size)
      let store := (vec.base, data.take size)
      if data.length = size then ⟨[], offset, [store]⟩
      else
        let next := readLoop rest (data.drop size) offset
        { next with stores := store :: next.stores }

structure ReadResult where
  error : Option ErrorCode
  pipe : Pipe
  uio : Uio
  stores : List (Nat × List UInt8)

def pipe_read (pipe : Pipe) (uio : Uio) : ReadResult :=
  if pipe.data = [] then ⟨some .WOULDBLOCK, pipe, uio, []⟩
  else
    let r := readLoop uio.iov pipe.data uio.offset
    ⟨none, ⟨r.data, .write :: pipe.emitted⟩, { uio with offset := r.offset }, r.stores⟩

/-! ## `pipe_write` -/

def overwrite (data bytes : List UInt8) : List UInt8 := bytes ++ data.drop bytes.length

/-- The loop over the vectors: the buffer it leaves, and the count or the error it stops with. -/
def writeLoop (mem : UserMemory) : List IoVec → List UInt8 → Nat → List UInt8 × Except ErrorCode Nat
  | [], data, cnt => (data, .ok cnt)
  | vec :: rest, data, cnt =>
    let data := data ++ List.replicate vec.len 0
    match mem.ureadRaw vec.base vec.len with
    | .error e => (data, .error e)
    | .ok bytes => writeLoop mem rest (overwrite data bytes) (cnt + vec.len)

structure WriteResult where
  error : Option ErrorCode
  pipe : Pipe
  uio : Uio

def pipe_write (other : Pipe) (mem : UserMemory) (uio : Uio) : WriteResult :=
  match writeLoop mem uio.iov other.data 0 with
  | (data, .error e) => ⟨some e, { other with data := data }, uio⟩
  | (data, .ok cnt) =>
    ⟨none, ⟨data, .read :: other.emitted⟩,
      { uio with resid := uio.resid - cnt, offset := u64 (uio.offset + cnt) }⟩

/-! ## Which calls are clean -/

def gather (mem : UserMemory) : List IoVec → Option (List UInt8)
  | [] => some []
  | vec :: rest =>
    match mem.ureadRaw vec.base vec.len with
    | .error _ => none
    | .ok bytes => (gather mem rest).map (bytes ++ ·)

/-- Bytes are copied only when they go to the begin of the buffer anyway, and a vector that cannot
be read is met before any room was made. `size` is the size of the buffer, `added` what this call
has added to it. -/
def WriteOk (mem : UserMemory) (size added : Nat) : List IoVec → Prop
  | [] => True
  | vec :: rest =>
    match mem.ureadRaw vec.base vec.len with
    | .error _ => added = 0 ∧ vec.len = 0
    | .ok _ => (vec.len = 0 ∨ size = 0) ∧ WriteOk mem (size + vec.len) (added + vec.len) rest

/-- No vector is empty before the buffer is drained. -/
def ReadOk (size : Nat) : List IoVec → Prop
  | [] => True
  | vec :: rest => vec.len ≠ 0 ∧ (size ≤ vec.len ∨ ReadOk (size - vec.len) rest)

/-! ## The loops, call by call -/

variable {iov : List IoVec} {data : List UInt8}

/-- A clean read hands out a prefix of the buffer and keeps the rest. -/
theorem readLoop_stream {offset : Nat} (hne : data ≠ []) (hok : ReadOk data.length iov) :
    ((readLoop iov data offset).stores.map Prod.snd).flatten ++ (readLoop iov data offset).data = data := by
  induction iov generalizing data offset with
  | nil => rfl
  | cons vec rest ih =>
    obtain ⟨hlen, hrest⟩ := hok
    have hpos : 0 < data.length := length_pos_iff.mpr hne
    have hsize : min data.length vec.len ≠ 0 := by omega
    by_cases hdrain : data.length = min data.length vec.len
    · -- the vector takes everything
      have htake : data.take (min data.length vec.len) = data := by rw [← hdrain, take_length]
      simp only [readLoop, if_neg hsize, if_pos hdrain, htake]
      simp
    -- it takes a proper part
    have hlt : vec.len < data.length := by omega
    have hmin : min data.length vec.len = vec.len := by omega
    have hdrop : data.drop vec.len ≠ [] := by rw [← length_pos_iff, length_drop]; omega
    have hok' : ReadOk (data.drop vec.len).length rest := by
      rw [length_drop]
      exact hrest.resolve_left (not_le.mpr hlt)
    have hih := @ih _ (u64 (offset + vec.len)) hdrop hok'
    simp only [readLoop, if_neg hsize, if_neg hdrain]
    rw [hmin, map_cons, flatten_cons, append_assoc, hih, take_append_drop]

variable {mem : UserMemory} {cnt : Nat} {uio : Uio}

/-- A clean write that succeeds appends the bytes of its vectors. -/
theorem writeLoop_ok {bytes : List UInt8} (hok : WriteOk mem data.length cnt iov)
    (hg : gather mem iov = some bytes) : writeLoop mem iov data cnt = (data ++ bytes, .ok (cnt + bytes.length)) := by
  induction iov generalizing data bytes cnt with
  | nil =>
    cases hg
    simp [writeLoop]
  | cons vec rest ih =>
    cases hread : mem.ureadRaw vec.base vec.len with
    | error e => simp [gather, hread] at hg
    | ok b =>
      have hblen := mem.length_eq _ _ _ hread
      simp only [gather, hread, Option.map_eq_some_iff] at hg
      obtain ⟨rest', hrest', rfl⟩ := hg
      simp only [WriteOk, hread] at hok
      obtain ⟨hplace, hok'⟩ := hok
      -- the begin of the buffer is its end, or nothing is copied
      have hover : overwrite (data ++ List.replicate vec.len 0) b = data ++ b := by
        rcases hplace with h0 | h0
        · have hb : b = [] := length_eq_zero_iff.mp (hblen.trans h0)
          simp [overwrite, hb, h0]
        have hd : data = [] := length_eq_zero_iff.mp h0
        simp [overwrite, hd, hblen]
      have hlen : (data ++ b).length = data.length + vec.len := by simp [hblen]
      rw [← hlen] at hok'
      simp only [writeLoop, hread, hover, ih hok' hrest', append_assoc]
      simp [hblen, Nat.add_assoc]

/-- A clean write that fails leaves the buffer as it was. -/
theorem writeLoop_error (hok : WriteOk mem data.length cnt iov) (hg : gather mem iov = none) :
    cnt = 0 ∧ ∃ e, writeLoop mem iov data cnt = (data, .error e) := by
  induction iov generalizing data cnt with
  | nil => cases hg
  | cons vec rest ih =>
    cases hread : mem.ureadRaw vec.base vec.len with
    | error e =>
      simp only [WriteOk, hread] at hok
      refine ⟨hok.1, e, ?_⟩
      simp only [writeLoop, hread]
      simp [hok.2]
    | ok b =>
      have hblen := mem.length_eq _ _ _ hread
      simp only [gather, hread, Option.map_eq_none_iff] at hg
      simp only [WriteOk, hread] at hok
      obtain ⟨-, hok'⟩ := hok
      -- nothing was added before the failing vector, so this one is empty
      have hzero : cnt + vec.len = 0 := by
        have hlen : (data ++ List.replicate vec.len (0 : UInt8)).length = data.length + vec.len := by simp
        rw [← hlen] at hok'
        exact (ih hok' hg).1
      have hvec : vec.len = 0 := by omega
      obtain rfl : b = [] := length_eq_zero_iff.mp (hblen.trans hvec)
      rw [hvec] at hok'
      obtain ⟨-, e, he⟩ := ih hok' hg
      refine ⟨by omega, e, ?_⟩
      simp only [writeLoop, hread]
      simpa [hvec, overwrite] using he

/-! ## The two ends -/

inductive End where
  | a
  | b
  deriving DecidableEq, Repr

def End.other : End → End
  | .a => .b
  | .b => .a

/-- Both ends, with the streams so far: what was written towards an end by calls that succeeded,
and what its readers were given. -/
structure Duplex where
  pipe : End → Pipe
  written : End → List UInt8
  delivered : End → List UInt8

def createPipe : Duplex := ⟨fun _ => ⟨[], []⟩, fun _ => [], fun _ => []⟩

/-- A call at one of the ends. The memory a writer's vectors point into is part of the call. -/
inductive PipeOp where
  | read (e : End) (uio : Uio)
  | write (e : End) (mem : UserMemory) (uio : Uio)

/-- One call, executed atomically. Neither call can get stuck, so the step is total. -/
def PipeOp.step (s : Duplex) : PipeOp → Option Duplex
  | .read e uio =>
    let r := pipe_read (s.pipe e) uio
    some { s with
      pipe := update s.pipe e r.pipe
      delivered := update s.delivered e
        (s.delivered e ++ (r.stores.map Prod.snd).flatten) }
  | .write e mem uio =>
    let r := pipe_write (s.pipe e.other) mem uio
    some { s with
      pipe := update s.pipe e.other r.pipe
      written := update s.written e.other
        (s.written e.other ++ if r.error = none then (gather mem uio.iov).getD [] else []) }

/-- The calls that avoid the slips. -/
def PipeOp.Clean (s : Duplex) : PipeOp → Prop
  | .read e uio => (s.pipe e).data = [] ∨ ReadOk (s.pipe e).data.length uio.iov
  | .write e mem uio => WriteOk mem (s.pipe e.other).data.length 0 uio.iov

/-- What was written towards an end is what its readers got, followed by what is buffered. -/
def IsStream (s : Duplex) : Prop :=
  ∀ e, s.delivered e ++ (s.pipe e).data = s.written e

theorem pipe_read_stream {pipe : Pipe} (h : pipe.data = [] ∨ ReadOk pipe.data.length uio.iov) :
    ((pipe_read pipe uio).stores.map Prod.snd).flatten ++ (pipe_read pipe uio).pipe.data = pipe.data := by
  by_cases hempty : pipe.data = []
  · simp [pipe_read, hempty]
  simp only [pipe_read, if_neg hempty]
  exact readLoop_stream hempty (h.resolve_left hempty)

theorem pipe_write_stream {other : Pipe} (h : WriteOk mem other.data.length 0 uio.iov) :
    (pipe_write other mem uio).pipe.data = other.data ++
      if (pipe_write other mem uio).error = none then (gather mem uio.iov).getD [] else [] := by
  cases hg : gather mem uio.iov with
  | none =>
    obtain ⟨-, e, he⟩ := writeLoop_error h hg
    simp [pipe_write, he]
  | some bytes => simp [pipe_write, writeLoop_ok h hg]

/-- A clean call keeps the stream law at both ends. -/
theorem step_isStream {s s' : Duplex} {op : PipeOp} (hs : IsStream s) (hop : op.Clean s)
    (hstep : op.step s = some s') : IsStream s' := by
  intro x
  cases op with
  | read e uio =>
    cases hstep
    by_cases hx : x = e
    · subst hx
      simp only [update_self]
      rw [append_assoc, pipe_read_stream hop]
      exact hs x
    simp only [update_of_ne hx]
    exact hs x
  | write e mem uio =>
    cases hstep
    by_cases hx : x = e.other
    · subst hx
      simp only [update_self]
      rw [pipe_write_stream hop, ← append_assoc, hs e.other]
    simp only [update_of_ne hx]
    exact hs x

/-- **A pipe is a loss-free byte stream**, for every interleaving of clean calls at its ends: at
every moment the bytes delivered at an end are a prefix of those written at the other one, and the
buffer holds exactly the rest. -/
theorem run_is_stream {ops : List PipeOp} {s : Duplex}
    (h : Run (fun s op => PipeOp.step s op) PipeOp.Clean createPipe ops s) (e : End) :
    s.delivered e <+: s.written e ∧ s.delivered e ++ (s.pipe e).data = s.written e := by
  have hs : IsStream s :=
    h.invariant (P := IsStream) (fun _ => rfl) fun _ _ _ hs hop hstep =>
      step_isStream hs hop hstep
  exact ⟨⟨_, hs e⟩, hs e⟩

def constantMemory : UserMemory where
  ureadRaw base len := .ok (List.replicate len base.toUInt8)
  length_eq := by
    intro base len bytes h
    cases h
    simp

/-- A write of three bytes, drained by two reads. -/
theorem run_is_stream_drained : ∃ s : Duplex, Run (fun s op => PipeOp.step s op) PipeOp.Clean createPipe
      [.write .a constantMemory ⟨0, [⟨7, 3⟩], 3⟩, .read .b ⟨0, [⟨0, 2⟩], 2⟩, .read .b ⟨0, [⟨0, 2⟩], 2⟩] s ∧
    s.delivered .b = [7, 7, 7] ∧ s.delivered .b ++ (s.pipe .b).data = s.written .b :=
  Run.exists_and (.cons ⟨Or.inr rfl, trivial⟩ rfl (.cons (Or.inr ⟨by decide, Or.inr trivial⟩) rfl
    (.cons (Or.inr ⟨by decide, Or.inr trivial⟩) rfl (.nil _)))) (by decide) fun h => (run_is_stream h .b).2

/-- Two writes of one byte each, `1` and then `2`: the second one overwrites the first and the
buffer ends with a byte nobody wrote. -/
theorem write_overwrites : ∃ s : Duplex, Run (fun s op => PipeOp.step s op) (fun _ _ => True) createPipe
      [.write .a constantMemory ⟨0, [⟨1, 1⟩], 1⟩, .write .a constantMemory ⟨0, [⟨2, 1⟩], 1⟩] s ∧
    s.written .b = [1, 2] ∧ s.delivered .b ++ (s.pipe .b).data = [2, 0] :=
  ⟨_, .cons trivial rfl (.cons trivial rfl (.nil _)), by decide, by decide⟩

end Rpcsx.Orbis
