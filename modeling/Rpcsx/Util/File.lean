import Rpcsx.Lib.ByteString

/-!
# Streams over a byte vector

`fs::container_stream<std::vector<u8>>`, the stream that `fs::make_stream` puts over a vector, and
the reads and writes of `fs::file` on it. A read that must fill its buffer (`read(T&)`,
`read(std::vector&, n)`, `read(std::string&, n)`) gives the bytes or fails; that these calls refuse
large sizes beforehand when the file is too short makes no difference to the answer.
-/

namespace Rpcsx.Util

open Lib List

structure ContainerStream where
  obj : List UInt8
  pos : Nat
  deriving DecidableEq

namespace ContainerStream

def resize (obj : List UInt8) (length : Nat) : List UInt8 :=
  obj.take length ++ replicate (length - obj.length) 0

def trunc (s : ContainerStream) (length : Nat) : ContainerStream :=
  { s with obj := resize s.obj length }

def seek (s : ContainerStream) (offset : Nat) : ContainerStream := { s with pos := offset }

def truncAt (s : ContainerStream) (offset : Nat) : ContainerStream := (s.seek offset).trunc offset

def write (s : ContainerStream) (src : List UInt8) : ContainerStream :=
  let obj := if s.obj.length < s.pos then resize s.obj s.pos else s.obj
  ⟨obj.take s.pos ++ src ++ obj.drop (s.pos + src.length), s.pos + src.length⟩

def read (obj : List UInt8) (pos size : Nat) : Option (List UInt8) :=
  if (slice obj pos size).length = size then some (slice obj pos size) else none

/-! ## Writing one thing after another -/

variable {s : ContainerStream} {done : List UInt8}

def Behind (s : ContainerStream) (done : List UInt8) : Prop :=
  s.pos = done.length ∧ done <+: s.obj

theorem Behind.write (h : s.Behind done) (src : List UInt8) : (s.write src).Behind (done ++ src) := by
  obtain ⟨hpos, l, hobj⟩ := h
  have hlong : ¬ s.obj.length < s.pos := by
    rw [← hobj, hpos, length_append]
    omega
  refine ⟨by simp [ContainerStream.write, hpos], ?_⟩
  rw [ContainerStream.write, if_neg hlong, ← hobj, hpos, take_left]
  exact prefix_append _ _

/-- Cutting the file off further on leaves what was written and a gap. -/
theorem Behind.truncAt (h : s.Behind done) (n : Nat) : ∃ gap : List UInt8, gap.length = n ∧
      s.truncAt (done.length + n) = ⟨done ++ gap, (done ++ gap).length⟩ := by
  obtain ⟨hpos, l, hobj⟩ := h
  refine ⟨l.take n ++ replicate (n - l.length) 0, ?_, ?_⟩
  · rw [length_append, length_take, length_replicate]
    omega
  have hobj' : resize s.obj (done.length + n) = done ++ (l.take n ++ replicate (n - l.length) 0) := by
    rw [resize, ← hobj, take_length_add_append, length_append, append_assoc]
    congr 3
    omega
  rw [ContainerStream.truncAt, trunc, seek, hobj']
  congr 1
  simp only [length_append, length_take, length_replicate]
  omega

/-- At the end of the file a write appends. -/
theorem write_end (obj src : List UInt8) : write ⟨obj, obj.length⟩ src = ⟨obj ++ src, (obj ++ src).length⟩ := by
  simp [write]

/-- At the end of the file a cut further on appends zeros. -/
theorem truncAt_end (obj : List UInt8) (n : Nat) : truncAt ⟨obj, obj.length⟩ (obj.length + n) =
      ⟨obj ++ replicate n 0, (obj ++ replicate n 0).length⟩ := by
  have htake : obj.take (obj.length + n) = obj := take_of_length_le (by omega)
  simp [truncAt, trunc, seek, resize, htake]

/-- A piece of the file is read back. -/
theorem read_piece {a b c : List UInt8} {pos n : Nat} (hpos : pos = a.length) (hn : n = b.length) :
    read (a ++ b ++ c) pos n = some b := by rw [read, slice_append hpos hn, if_pos hn.symm]

theorem read_first {b c : List UInt8} {n : Nat} (hn : n = b.length) :
    read (b ++ c) 0 n = some b := read_piece length_nil.symm hn

end ContainerStream

end Rpcsx.Util
