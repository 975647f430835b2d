import Rpcsx.Tar.Scan

/-!
# A directory, its archive, and back

Every entry of a directory becomes a block of the archive, so that whatever is read from the archive
is what the directory had. An access time that does not fit its field is not saved: it is written
over the end of the header.
-/

namespace Rpcsx.Tar

open Lib Util List Option DirEntry

section

variable (files : Bytes → Option Bytes) (target : Bytes)

def DirEntry.path (e : DirEntry) : Bytes := savedPath target.length e.name

def DirEntry.contents (e : DirEntry) : Bytes :=
  if e.stat.isDirectory ∨ e.stat.size = 0 then [] else (files e.name).getD []

def DirEntry.member (e : DirEntry) : Bytes × UInt8 × Bytes :=
  (e.path target, e.stat.filetype, e.contents files)

/-- An entry that can be saved: its path and its size fit their fields, and the file is there with
the size that was found. -/
structure DirEntry.Fits (e : DirEntry) : Prop where
  name : target <+: e.name
  path_le : (e.path target).length ≤ 255
  path_nul : 0 ∉ e.path target
  size_lt : e.stat.isDirectory = false → e.stat.size < 8 ^ 11
  file : e.stat.isDirectory = false → e.stat.size ≠ 0 →
    ∃ fd, files e.name = some fd ∧ fd.length = e.stat.size
  mtime_lt : e.stat.mtime < 0x10000000000000000

variable {files target} {e : DirEntry} {entries : List DirEntry}

theorem savedPath_ne (n : Nat) (name : Bytes) : savedPath n name ≠ [] := by
  rw [savedPath]
  split
  · exact cons_ne_nil _ _
  · assumption

/-- The loop copies the file. -/
theorem copyBlocks_eq (fd : Bytes) (readIndex : Nat) :
    copyBlocks fd fd.length readIndex = some (fd.drop readIndex) := by
  have hpos := transferBlockSize_pos
  induction hn : fd.length - readIndex using Nat.strong_induction_on generalizing readIndex with
  | h n ih =>
    rw [copyBlocks]
    split
    case isTrue hlt =>
      have hread : ContainerStream.read fd readIndex (min transferBlockSize (fd.length - readIndex)) =
          some ((fd.drop readIndex).take transferBlockSize) := by
        have hslice : slice fd readIndex (min transferBlockSize (fd.length - readIndex)) =
            (fd.drop readIndex).take transferBlockSize := by
          rw [slice, take_eq_take_iff, length_drop]
          omega
        rw [ContainerStream.read, hslice, if_pos]
        rw [length_take, length_drop]
      rw [hread, bind_some, ih _ (by omega) _ rfl, map_some, ← drop_drop, take_append_drop]
    case isFalse hge => rw [drop_of_length_le (by omega)]

section

variable (h : e.Fits files target)

include h

theorem DirEntry.Fits.length_contents : (e.contents files).length = e.stat.savedSize := by
  rw [contents, Stat.savedSize]
  cases hdir : e.stat.isDirectory with
  | true => simp
  | false =>
    by_cases hsize : e.stat.size = 0
    · simp [hsize]
    obtain ⟨fd, hfd, hlen⟩ := h.file hdir hsize
    simp [hsize, hfd, hlen]

theorem DirEntry.Fits.savedSize_lt : e.stat.savedSize < 8 ^ 11 := by
  rw [Stat.savedSize]
  cases hdir : e.stat.isDirectory with
  | true => exact (by decide : 0 < 8 ^ 11)
  | false => exact h.size_lt hdir

/-- What is appended behind the header. -/
theorem DirEntry.Fits.saved_data :
    (if e.stat.isDirectory then some [] else saveFile files e) = some (e.contents files ++ List.replicate
        (alignUp512 (e.contents files).length - (e.contents files).length) 0) := by
  have hzero : alignUp512 0 = 0 := rfl
  rw [contents, saveFile]
  cases hdir : e.stat.isDirectory with
  | true => simp [hzero]
  | false =>
    by_cases hsize : e.stat.size = 0
    · simp [hsize, hzero]
    obtain ⟨fd, hfd, hlen⟩ := h.file hdir hsize
    have hcopy := copyBlocks_eq fd 0
    rw [hlen, drop_zero] at hcopy
    simp [hsize, hfd, hcopy]

/-- An entry becomes a block. -/
theorem DirEntry.Fits.saveEntry_eq (hatime : e.stat.atime < 8 ^ 12) :
    ∃ b : Block, b.member = e.member files target ∧ b.Kind ∧
      ∀ ar, saveEntry files target ar e = some (ar ++ b.bytes) := by
  have hlen := h.length_contents
  obtain ⟨header, hmake, hspells⟩ := makeHeader_spells h.path_le h.path_nul h.savedSize_lt h.mtime_lt hatime
  rw [← hlen] at hspells
  refine ⟨⟨header, e.path target, e.contents files, e.stat.filetype, savedPath_ne _ _, ?_, hspells⟩,
    rfl, ?_, fun ar => ?_⟩
  · rw [hlen]
    exact h.savedSize_lt
  · cases hdir : e.stat.isDirectory with
    | true => exact .inr ⟨by simp [Stat.filetype, hdir], by simp [contents, hdir]⟩
    | false => exact .inl (by simp [Stat.filetype, hdir])
  rw [saveEntry, if_pos h.name, ← path, hmake, bind_some, h.saved_data,
    map_some, Block.bytes, append_assoc, append_assoc]

end

theorem saveEntries_eq (hfits : ∀ e ∈ entries, e.Fits files target)
    (hatime : ∀ e ∈ entries, e.stat.atime < 8 ^ 12) (ar : Bytes) :
    ∃ blocks : List Block, blocks.map Block.member = entries.map (member files target) ∧ (∀ b ∈ blocks, b.Kind) ∧
      entries.foldlM (saveEntry files target) ar = some (ar ++ archive blocks) := by
  induction entries generalizing ar with
  | nil => exact ⟨[], rfl, nofun, by rw [archive, flatMap_nil, append_nil]; rfl⟩
  | cons e entries ih =>
    obtain ⟨b, hmember, hkind, hsave⟩ := (hfits e mem_cons_self).saveEntry_eq (hatime e mem_cons_self)
    obtain ⟨blocks, hmembers, hkinds, hrest⟩ := ih (fun x hx => hfits x (mem_cons_of_mem _ hx))
        (fun x hx => hatime x (mem_cons_of_mem _ hx)) (ar ++ b.bytes)
    refine ⟨b :: blocks, ?_, ?_, ?_⟩
    · rw [map_cons, map_cons, hmember, hmembers]
    · intro x hx
      rcases mem_cons.mp hx with rfl | hx
      · exact hkind
      · exact hkinds x hx
    rw [foldlM_cons, hsave, archive_cons, ← append_assoc]
    exact hrest

end

def savedContents (files : Bytes → Option Bytes) (target : Bytes) (entries : List DirEntry)
    (path : Bytes) : Option Bytes :=
  (entries.find? fun e => e.path target = path).map (DirEntry.contents files)

theorem lookup_eq_savedContents {files : Bytes → Option Bytes} {target : Bytes}
    {entries : List DirEntry} {blocks : List Block} (h : blocks.map Block.member = entries.map (member files target))
    (path : Bytes) : lookup blocks path = savedContents files target entries path := by
  have hlookup : lookup blocks path = ((blocks.map Block.member).find? fun m => m.1 = path).map fun m => m.2.2 := by
    rw [lookup, find?_map, Option.map_map]
    rfl
  rw [hlookup, h, find?_map, Option.map_map]
  rfl

/-- The archive of a directory is read back: over a file by lookups in any order, with nothing read
behind the end, and over a stream by going through it, which ends with the archive. -/
theorem tar_round_trip (files : Bytes → Option Bytes) (target ar : Bytes) (entries : List DirEntry)
    (hne : entries ≠ []) (hfits : ∀ e ∈ entries, e.Fits files target) (hatime : ∀ e ∈ entries, e.stat.atime < 8 ^ 12)
    (hdistinct : (entries.map (path target)).Nodup) :
    ∃ stream, saveDirectory files target ar entries = some (ar ++ stream) ∧ (∀ paths,
        (getFiles stream paths .new).2 = paths.map (savedContents files target entries) ∧
        (getFilenames stream (getFiles stream paths .new).1).2.Perm (entries.map (path target)) ∧
        (getFilenames stream (getFiles stream paths .new).1).1.largestOffset = stream.length ∧
        ∀ o ∈ (getFilenames stream (getFiles stream paths .new).1).1.reads, o + 512 ≤ stream.length) ∧
      ∀ back, extract ar.length (entries.length + 1)
        ⟨ar ++ stream ++ back, ar.length, ar.length + stream.length⟩ .new = some (entries.map (member files target),
            ⟨ar ++ stream ++ back, ar.length + stream.length, ar.length + stream.length⟩) := by
  obtain ⟨blocks, hmembers, hkinds, hsave⟩ := saveEntries_eq hfits hatime ar
  have hpaths : blocks.map Block.path = entries.map (path target) := by
    have h := congrArg (List.map Prod.fst) hmembers
    rwa [List.map_map, List.map_map] at h
  have hlength : blocks.length = entries.length := by
    have h := congrArg List.length hmembers
    rwa [length_map, length_map] at h
  rw [← hpaths] at hdistinct
  refine ⟨archive blocks, ?_, fun paths => ?_, fun back => ?_⟩
  · rw [saveDirectory, if_neg hne, hsave]
  · obtain ⟨done, todo, heq, hscanned, hvals⟩ :=
      getFiles_spec paths scanned_new rfl (nil_append blocks) hdistinct
    obtain ⟨hall, hnames⟩ := getFilenames_spec hscanned rfl heq hdistinct
    refine ⟨?_, hpaths ▸ hnames, hall.offset, hall.reads⟩
    rw [hvals]
    exact map_congr_left fun path _ => lookup_eq_savedContents hmembers path
  have hholds : Holds ar.length ⟨ar ++ archive blocks ++ back, ar.length,
      ar.length + (archive blocks).length⟩ ([] ++ blocks) := ⟨⟨ar, back, rfl, rfl⟩, rfl⟩
  rw [← hlength, ← hmembers]
  exact extract_spec hholds scanned_new rfl hdistinct hkinds

def smallEntries : List DirEntry :=
  [⟨ascii "d", ⟨true, 4096, 1, 1⟩⟩, ⟨ascii "d/f", ⟨false, 2, 1, 1⟩⟩]

def smallFiles (name : Bytes) : Option Bytes := if name = ascii "d/f" then some [1, 2] else none

theorem smallEntries_fits : ∀ e ∈ smallEntries, e.Fits smallFiles (ascii "d") := by
  intro e he
  simp only [smallEntries, mem_cons, not_mem_nil, or_false] at he
  rcases he with rfl | rfl
  · exact ⟨by decide, by decide, by decide, by rintro ⟨⟩, by rintro ⟨⟩, by decide⟩
  · exact ⟨by decide, by decide, by decide, fun _ => by decide, fun _ _ => ⟨[1, 2], rfl, rfl⟩, by decide⟩

/-- Lookups of the file before and after one that fails. -/
theorem tar_round_trip_small : ∃ stream, saveDirectory smallFiles (ascii "d") [] smallEntries = some stream ∧
      (getFiles stream [ascii "f", ascii "g", ascii "f"] .new).2 = [some [1, 2], none, some [1, 2]] := by
  obtain ⟨stream, hsave, hfile, -⟩ := tar_round_trip smallFiles (ascii "d") [] smallEntries
    (cons_ne_nil _ _) smallEntries_fits (by decide) (by decide)
  exact ⟨stream, hsave, (hfile _).1.trans (by decide)⟩

/-- The block of zeros that ends an archive elsewhere. -/
def endMarker : Bytes := List.replicate 512 0

/-- An archive of one empty block is not ended by a block of zeros. -/
theorem slice_ne_endMarker {b : Block} (hnil : b.contents = []) (k : Nat) :
    slice b.bytes (512 * k) 512 ≠ endMarker := by
  have hzero : alignUp512 ([] : Bytes).length = 0 := rfl
  have hbytes : b.bytes = b.header.bytes := by
    rw [Block.bytes, hnil, hzero, append_nil]
    exact append_nil _
  intro heq
  rw [hbytes] at heq
  cases k with
  | zero =>
    have hall : slice b.header.bytes (512 * 0) 512 = b.header.bytes :=
      take_of_length_le (Nat.le_of_eq b.header.length_bytes)
    have hmagic := b.spells.magic
    rw [TARHeader.magic, ← hall, heq] at hmagic
    exact absurd hmagic (by decide +kernel)
  | succ k =>
    have hlen := congrArg List.length heq
    rw [length_slice, b.header.length_bytes, endMarker, length_replicate] at hlen
    omega

/-- The archive of an empty directory has no such block, and an access time before the epoch is
written over the end of the header. -/
theorem tar_without_marker : (∃ stream, saveDirectory smallFiles (ascii "d") [] (smallEntries.take 1) = some stream ∧
      ∀ k, slice stream (512 * k) 512 ≠ endMarker) ∧
    saveDirectory smallFiles (ascii "d") [] [⟨ascii "d", ⟨true, 4096, 1, 0xffffffffffffffff⟩⟩] = none := by
  constructor
  · obtain ⟨b, hmember, -, hsave⟩ :=
      (smallEntries_fits _ mem_cons_self).saveEntry_eq (by decide)
    refine ⟨b.bytes, ?_, slice_ne_endMarker (congrArg (fun m => m.2.2) hmember)⟩
    rw [saveDirectory, smallEntries, take_succ_cons, take_zero, if_neg (cons_ne_nil _ _), foldlM_cons, hsave]
    rfl
  have hnone : makeHeader ⟨true, 4096, 1, 0xffffffffffffffff⟩ (savedPath 1 (ascii "d")) = none :=
    makeHeader_eq_none (by decide) (by decide)
  rw [saveDirectory, if_neg (cons_ne_nil _ _), foldlM_cons, saveEntry, if_pos (by decide)]
  exact congrArg (fun h => Option.bind (Option.bind h _) _) hnone

end Rpcsx.Tar
