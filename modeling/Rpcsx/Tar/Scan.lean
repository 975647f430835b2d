import Rpcsx.Tar.Archive

/-!
# Reading an archive

An archive is a list of blocks, each a header that spells a path and a size, and the contents. The
readers are followed block by block; how far a scan of a file has come is the list of blocks it has
left behind, and a lookup moves on along that list. With different paths every order of lookups
finds every member.
-/

namespace Rpcsx.Tar

open Lib Util List Option

structure Block where
  header : TARHeader
  path : Bytes
  contents : Bytes
  filetype : UInt8
  path_ne : path ≠ []
  size_lt : contents.length < 8 ^ 11
  spells : header.Spells path contents.length filetype

def Block.bytes (b : Block) : Bytes :=
  b.header.bytes ++ b.contents ++
    List.replicate (alignUp512 b.contents.length - b.contents.length) 0

def archive (blocks : List Block) : Bytes := blocks.flatMap Block.bytes

theorem le_alignUp512 (n : Nat) : n ≤ alignUp512 n := by
  rw [alignUp512]
  omega

theorem Block.length_bytes (b : Block) : b.bytes.length = 512 + alignUp512 b.contents.length := by
  have hle := le_alignUp512 b.contents.length
  rw [Block.bytes, length_append, length_append, length_replicate, b.header.length_bytes]
  omega

theorem archive_append (a b : List Block) : archive (a ++ b) = archive a ++ archive b := flatMap_append

theorem archive_cons (b : Block) (rest : List Block) : archive (b :: rest) = b.bytes ++ archive rest :=
  flatMap_cons

theorem cachedSize_cacheSize (h : TARHeader) {n : Nat} (hn : n < 8 ^ 11) : (h.cacheSize n).cachedSize = n := by
  have hlen : (leBytes 8 n).length = 8 := length_leBytes 8 n
  rw [TARHeader.cachedSize, TARHeader.cacheSize,
    slice_overwrite_self (by rw [h.length_bytes, hlen]; decide) (Nat.le_of_eq hlen), hlen,
    Nat.sub_self, slice, take_zero, append_nil, ofLeBytes_leBytes,
    Nat.mod_eq_of_lt (hn.trans (by decide))]

/-- The kind of an entry is not touched by the cached size. -/
theorem filetype_cacheSize (h : TARHeader) (n : Nat) : (h.cacheSize n).filetype = h.filetype := by
  have hlen : (leBytes 8 n).length = 8 := length_leBytes 8 n
  exact slice_overwrite_of_disjoint (by rw [h.length_bytes, hlen]; decide) (.inr (by rw [hlen]; decide))

/-- A header with a name has a first byte in one of its pieces. -/
theorem TARHeader.head_ne (h : TARHeader) (hne : h.filename ≠ []) :
    h.name.head? ≠ some 0 ∨ h.pathPrefix.head? ≠ some 0 := by
  by_contra hcon
  rw [not_or, not_not, not_not] at hcon
  refine hne ?_
  have hempty : ∀ {l : Bytes}, l.head? = some 0 → cString l = [] := by
    intro l hl
    cases l with
    | nil => rfl
    | cons c l =>
      rw [head?_cons, some.injEq] at hl
      rw [hl]
      rfl
  rw [TARHeader.filename, hempty hcon.1, hempty hcon.2]
  rfl

variable {b : Block} {t : TarObject}

def TarObject.enter (t : TarObject) (b : Block) : TarObject where
  largestOffset := t.largestOffset + b.bytes.length
  map := t.map.insert b.path (t.largestOffset + 512, b.header.cacheSize b.contents.length)
  reads := t.reads ++ [t.largestOffset]

theorem emplaceSingleEntry_block {readHeader : Nat → TARHeader} {maxSize : Nat}
    (hread : readHeader t.largestOffset = b.header) (hmax : t.largestOffset + b.bytes.length ≤ maxSize) :
    emplaceSingleEntry readHeader maxSize t =
      ({ t.enter b with largestOffset := t.largestOffset + 512 }, some b.contents.length, b.path) := by
  have hlen := b.length_bytes
  have hle := le_alignUp512 b.contents.length
  have hsize : b.contents.length < 0x200000000 := b.size_lt
  have hhead := b.header.head_ne (by rw [b.spells.filename]; exact b.path_ne)
  have hmagic : b.header.magic.take 5 = ascii "ustar" := by
    rw [b.spells.magic]
    rfl
  rw [emplaceSingleEntry, if_neg (by omega), hread]
  simp only [hmagic, if_true, b.spells.size, b.spells.filename]
  rw [if_pos ⟨hhead, by omega, by omega, by omega⟩]
  rfl

/-! ## Scanning a file -/

structure Scanned (done : List Block) (t : TarObject) : Prop where
  offset : t.largestOffset = (archive done).length
  find : ∀ path x, t.map.find? path = some x ↔ ∃ a b c, done = a ++ b :: c ∧ b.path = path ∧
    x = ((archive a).length + 512, b.header.cacheSize b.contents.length)
  reads : ∀ o ∈ t.reads, o + 512 ≤ (archive done).length

theorem scanned_new : Scanned [] .new where
  offset := rfl
  find := fun _ _ => ⟨nofun, fun ⟨a, _, _, h, _⟩ => by cases a <;> cases h⟩
  reads := nofun

variable {done todo blocks : List Block} {file path : Bytes}

/-- The next block comes under its own path. -/
theorem Scanned.enter (h : Scanned done t) (hnew : ∀ x ∈ done, x.path ≠ b.path) :
    Scanned (done ++ [b]) (t.enter b) where
  offset := by
    rw [TarObject.enter, archive_append, length_append, h.offset, archive_cons, length_append]
    rfl
  find := by
    intro path x
    rw [TarObject.enter]
    rw [OrdMap.find?_insert]
    split
    case isTrue heq =>
      subst heq
      constructor
      · intro hx
        rw [← some.inj hx, h.offset]
        exact ⟨done, b, [], rfl, rfl, rfl⟩
      rintro ⟨a, b', c, hsplit, hpath, rfl⟩
      rcases eq_nil_or_concat c with rfl | ⟨c', z, rfl⟩
      · obtain ⟨rfl, hb⟩ := append_inj' hsplit rfl
        obtain rfl : b = b' := (List.cons.inj hb).1
        rw [h.offset]
      -- another block before the last one with the same path
      have hmem : b' ∈ done := by
        rw [concat_eq_append, ← cons_append, ← append_assoc] at hsplit
        rw [(append_inj' hsplit rfl).1]
        exact mem_append_right _ mem_cons_self
      exact absurd hpath (hnew b' hmem)
    case isFalse hne =>
      rw [h.find path x]
      constructor
      · rintro ⟨a, b', c, rfl, hpath, hx⟩
        exact ⟨a, b', c ++ [b], by rw [append_assoc]; rfl, hpath, hx⟩
      rintro ⟨a, b', c, hsplit, hpath, hx⟩
      rcases eq_nil_or_concat c with rfl | ⟨c', z, rfl⟩
      · obtain rfl : b = b' := (List.cons.inj (append_inj' hsplit rfl).2).1
        exact absurd hpath.symm hne
      rw [concat_eq_append, ← cons_append, ← append_assoc] at hsplit
      exact ⟨a, b', c', (append_inj' hsplit rfl).1, hpath, hx⟩
  reads := by
    intro o ho
    have hlen := b.length_bytes
    rw [archive_append, length_append, archive_cons, length_append]
    rcases mem_append.mp ho with ho | ho
    · have := h.reads o ho
      omega
    rw [mem_singleton.mp ho, h.offset]
    omega

theorem scanEntry_block (h : Scanned done t) (hfile : file = archive (done ++ b :: todo)) :
    scanEntry file t = (t.enter b, b.path) := by
  have hslice : slice file t.largestOffset 512 = b.header.bytes := by
    rw [hfile, h.offset, archive_append, archive_cons, Block.bytes, append_assoc, append_assoc, ← append_assoc]
    exact slice_append rfl b.header.length_bytes.symm
  have hread : readHeader file t.largestOffset = b.header := by
    simp only [readHeader, hslice, b.header.length_bytes, dif_pos]
  have hmax : t.largestOffset + b.bytes.length ≤ file.length := by
    rw [hfile, h.offset, archive_append, archive_cons, length_append, length_append]
    omega
  rw [scanEntry, emplaceSingleEntry_block hread hmax]
  simp only [TarObject.enter, b.length_bytes, add_assoc]

theorem path_ne_of_nodup {done todo : List Block} {b : Block} (h : ((done ++ b :: todo).map Block.path).Nodup) :
    ∀ x ∈ done, x.path ≠ b.path := by
  rw [map_append, nodup_append] at h
  exact fun x hx => h.2.2 _ (List.mem_map_of_mem hx) _ mem_cons_self

/-- A scan goes on along the blocks, to the one with the path or to the end. -/
theorem scan_spec (path : Bytes) (h : Scanned done t) (hfile : file = archive (done ++ todo))
    (hnodup : ((done ++ todo).map Block.path).Nodup) :
    ∃ done' todo', done' ++ todo' = done ++ todo ∧ Scanned done' (scan file path t).1 ∧
      ((scan file path t).2 → ∃ b ∈ done', b.path = path) ∧
      ((scan file path t).2 = false → todo' = [] ∧ ∀ b ∈ todo, b.path ≠ path) := by
  induction todo generalizing done t with
  | nil =>
    have hend : ¬ t.largestOffset < file.length := by
      rw [hfile, h.offset, append_nil]
      exact lt_irrefl _
    rw [scan, dif_neg hend]
    exact ⟨done, [], rfl, h, nofun, fun _ => ⟨rfl, nofun⟩⟩
  | cons b todo ih =>
    have hlt : t.largestOffset < file.length := by
      have hlen := b.length_bytes
      rw [hfile, h.offset, archive_append, archive_cons, length_append, length_append]
      omega
    have hnew := path_ne_of_nodup hnodup
    have hsplit := append_cons done b todo
    rw [scan, dif_pos hlt]
    simp only [scanEntry_block h hfile]
    by_cases hpath : path ≠ [] ∧ path = b.path
    · rw [if_pos hpath]
      exact ⟨done ++ [b], todo, hsplit.symm, h.enter hnew,
        fun _ => ⟨b, mem_append_right _ mem_cons_self, hpath.2.symm⟩, nofun⟩
    rw [if_neg hpath]
    obtain ⟨done', todo', heq, hscanned, htrue, hfalse⟩ :=
      ih (h.enter hnew) (by rw [← hsplit]; exact hfile) (by rw [← hsplit]; exact hnodup)
    refine ⟨done', todo', heq.trans hsplit.symm, hscanned, htrue, fun hnone => ?_⟩
    obtain ⟨hnil, htodo⟩ := hfalse hnone
    refine ⟨hnil, fun x hx => ?_⟩
    rcases mem_cons.mp hx with rfl | hx
    · rintro rfl
      exact hpath ⟨x.path_ne, rfl⟩
    exact htodo x hx

def lookup (blocks : List Block) (path : Bytes) : Option Bytes :=
  (blocks.find? fun b => b.path = path).map Block.contents

theorem lookup_of_mem (hnodup : (blocks.map Block.path).Nodup) (hb : b ∈ blocks) :
    lookup blocks b.path = some b.contents := by
  cases hfound : blocks.find? fun x => x.path = b.path with
  | none => exact absurd (decide_eq_true rfl) (find?_eq_none.mp hfound b hb)
  | some x =>
    have hpath : x.path = b.path := by simpa using find?_some hfound
    obtain rfl : x = b := inj_on_of_nodup_map hnodup (mem_of_find?_eq_some hfound) hb hpath
    rw [lookup, hfound, map_some]

theorem lookup_eq_none (h : ∀ b ∈ blocks, b.path ≠ path) : lookup blocks path = none := by
  rw [lookup, find?_eq_none.mpr fun b hb => by simpa using h b hb, map_none]

/-- The view of a block that was left behind is its contents. -/
theorem Scanned.view_eq (h : Scanned done t) (hfile : file = archive (done ++ todo)) (hb : b ∈ done)
    (hnodup : ((done ++ todo).map Block.path).Nodup) : t.view file b.path = some b.contents := by
  obtain ⟨a, c, rfl⟩ := append_of_mem hb
  rw [TarObject.view, (h.find b.path _).mpr ⟨a, b, c, rfl, rfl, rfl⟩, map_some,
    cachedSize_cacheSize _ b.size_lt, hfile, append_assoc, cons_append, archive_append,
    archive_cons, Block.bytes, append_assoc, append_assoc, ← append_assoc,
    ← append_assoc]
  refine congrArg some (slice_append ?_ rfl)
  rw [length_append, b.header.length_bytes]

theorem Scanned.mem_of_find (h : Scanned done t) (hsome : (t.map.find? path).isSome) : ∃ b ∈ done, b.path = path := by
  obtain ⟨x, hx⟩ := isSome_iff_exists.mp hsome
  obtain ⟨a, b, c, rfl, hpath, -⟩ := (h.find path x).mp hx
  exact ⟨b, mem_append_right _ mem_cons_self, hpath⟩

/-- A lookup answers as the whole archive does, however much of it was seen. -/
theorem getFile_spec (path : Bytes) (h : Scanned done t) (hfile : file = archive blocks)
    (hblocks : done ++ todo = blocks) (hnodup : (blocks.map Block.path).Nodup) :
    ∃ done' todo', done' ++ todo' = blocks ∧ Scanned done' (getFile file path t).1 ∧
      (getFile file path t).2 = lookup blocks path ∧ (path = [] → todo' = []) := by
  subst hblocks
  rw [getFile]
  by_cases hsome : (t.map.find? path).isSome
  · obtain ⟨b, hb, rfl⟩ := h.mem_of_find hsome
    rw [if_pos hsome]
    refine ⟨done, todo, rfl, h, ?_, fun hnil => absurd hnil b.path_ne⟩
    rw [h.view_eq hfile hb hnodup, lookup_of_mem hnodup (mem_append_left _ hb)]
  rw [if_neg hsome]
  obtain ⟨done', todo', heq, hscanned, htrue, hfalse⟩ := scan_spec path h hfile hnodup
  rcases hscan : scan file path t with ⟨t', found⟩
  rw [hscan] at hscanned htrue hfalse
  cases found with
  | true =>
    obtain ⟨b, hb, rfl⟩ := htrue rfl
    refine ⟨done', todo', heq, hscanned, ?_, fun hnil => absurd hnil b.path_ne⟩
    rw [← heq] at hfile hnodup ⊢
    exact (hscanned.view_eq hfile hb hnodup).trans (lookup_of_mem hnodup (mem_append_left _ hb)).symm
  | false =>
    obtain ⟨hnil, htodo⟩ := hfalse rfl
    refine ⟨done', todo', heq, hscanned, (lookup_eq_none fun b hb hpath => ?_).symm, fun _ => hnil⟩
    rcases mem_append.mp hb with hb | hb
    · -- a block that was left behind is in the map
      obtain ⟨a, c, rfl⟩ := append_of_mem hb
      have hfound := (h.find path _).mpr ⟨a, b, c, rfl, hpath, rfl⟩
      rw [hfound] at hsome
      exact hsome rfl
    exact htodo b hb hpath

def getFiles (file : Bytes) : List Bytes → TarObject → TarObject × List (Option Bytes)
  | [], t => (t, [])
  | path :: paths, t =>
    let first := getFile file path t
    let rest := getFiles file paths first.1
    (rest.1, first.2 :: rest.2)

theorem getFiles_spec (paths : List Bytes) (h : Scanned done t) (hfile : file = archive blocks)
    (hblocks : done ++ todo = blocks) (hnodup : (blocks.map Block.path).Nodup) :
    ∃ done' todo', done' ++ todo' = blocks ∧ Scanned done' (getFiles file paths t).1 ∧
      (getFiles file paths t).2 = paths.map (lookup blocks) := by
  induction paths generalizing done todo t with
  | nil => exact ⟨done, todo, hblocks, h, rfl⟩
  | cons path paths ih =>
    obtain ⟨done', todo', heq, hscanned, hval, -⟩ := getFile_spec path h hfile hblocks hnodup
    obtain ⟨done'', todo'', heq', hscanned', hvals⟩ := ih hscanned heq
    refine ⟨done'', todo'', heq', hscanned', ?_⟩
    rw [getFiles, map_cons, ← hval, ← hvals]

/-- The names of a scanned archive are those of its blocks. -/
theorem Scanned.keys_perm (h : Scanned done t) (hnodup : (done.map Block.path).Nodup) :
    (t.map.entries.map Prod.fst).Perm (done.map Block.path) := by
  refine (perm_ext_iff_of_nodup ?_ hnodup).mpr fun path => ?_
  · rw [List.Nodup, pairwise_map]
    exact t.map.sorted.imp ne_of_lt
  rw [List.mem_map, List.mem_map]
  constructor
  · rintro ⟨⟨p, x⟩, hmem, rfl⟩
    obtain ⟨a, b, c, rfl, hpath, -⟩ := (h.find p x).mp (OrdMap.mem_entries_iff.mp hmem)
    exact ⟨b, mem_append_right _ mem_cons_self, hpath⟩
  rintro ⟨b, hb, rfl⟩
  obtain ⟨a, c, rfl⟩ := append_of_mem hb
  exact ⟨(b.path, _), OrdMap.mem_entries_iff.mpr ((h.find b.path _).mpr ⟨a, b, c, rfl, rfl, rfl⟩), rfl⟩

/-- At any time `get_filenames` gives all of the names and leaves nothing to be read. -/
theorem getFilenames_spec (h : Scanned done t) (hfile : file = archive blocks)
    (hblocks : done ++ todo = blocks) (hnodup : (blocks.map Block.path).Nodup) :
    Scanned blocks (getFilenames file t).1 ∧ (getFilenames file t).2.Perm (blocks.map Block.path) := by
  obtain ⟨done', todo', heq, hscanned, -, hnil⟩ := getFile_spec [] h hfile hblocks hnodup
  rw [hnil rfl, append_nil] at heq
  subst heq
  exact ⟨hscanned, hscanned.keys_perm hnodup⟩

/-! ## Going through a stream -/

section

variable {start : Nat} {ar : Serial}

structure Holds (start : Nat) (ar : Serial) (blocks : List Block) : Prop where
  data : ∃ front back, ar.data = front ++ archive blocks ++ back ∧ front.length = start
  maxData : ar.maxData = start + (archive blocks).length

theorem Holds.getSize (h : Holds start ar blocks) : ar.getSize - start = (archive blocks).length := by
  obtain ⟨front, back, hdata, hfront⟩ := h.data
  rw [Serial.getSize, h.maxData, hdata, length_append, length_append, hfront]
  omega

/-- A piece of the archive is a piece of the stream. -/
theorem Holds.slice_eq (h : Holds start ar blocks) {a b c : Bytes} (hsplit : archive blocks = a ++ b ++ c)
    {pos n : Nat} (hpos : pos = start + a.length) (hn : n = b.length) : slice ar.data pos n = b := by
  obtain ⟨front, back, hdata, hfront⟩ := h.data
  rw [hdata, hsplit, ← append_assoc, ← append_assoc, append_assoc (front ++ a ++ b)]
  exact slice_append (by rw [length_append, hfront, hpos]) hn

theorem nextEntry_block (h : Holds start ar (done ++ b :: todo)) (hscanned : Scanned done t)
    (hpos : ar.pos = start + t.largestOffset) :
    nextEntry start ar t = some ({ ar with pos := ar.pos + 512 }, t.enter b, b.path) := by
  have hlen : (archive (done ++ b :: todo)).length = t.largestOffset + b.bytes.length + (archive todo).length := by
    rw [archive_append, archive_cons, length_append, length_append, hscanned.offset, add_assoc]
  have hblock := b.length_bytes
  have hslice : slice ar.data ar.pos 512 = b.header.bytes := by
    refine h.slice_eq (a := archive done) (c := b.contents ++ List.replicate
      (alignUp512 b.contents.length - b.contents.length) 0 ++ archive todo) ?_
      (by rw [hpos, hscanned.offset]) b.header.length_bytes.symm
    rw [archive_append, archive_cons, Block.bytes]
    simp only [append_assoc]
  have hfull : (slice ar.data ar.pos 512).length = 512 := by rw [hslice, b.header.length_bytes]
  rw [nextEntry, h.getSize, if_neg (by omega), dif_pos ⟨hpos, hfull⟩,
    emplaceSingleEntry_block (b := b) (by simp only [hslice]) (by omega)]
  simp only [TarObject.enter, hblock, getD_some, add_assoc]

def Block.member (b : Block) : Bytes × UInt8 × Bytes := (b.path, b.filetype, b.contents)

def Block.Kind (b : Block) : Prop := b.filetype = 48 ∨ b.filetype = 53 ∧ b.contents = []

/-- `extract` comes to every block in turn and ends behind the last one. -/
theorem extract_spec (h : Holds start ar (done ++ todo)) (hscanned : Scanned done t)
    (hpos : ar.pos = start + t.largestOffset) (hnodup : ((done ++ todo).map Block.path).Nodup)
    (hkind : ∀ b ∈ todo, b.Kind) :
    extract start (todo.length + 1) ar t = some (todo.map Block.member, { ar with pos := ar.maxData }) := by
  induction todo generalizing done t ar with
  | nil =>
    have hend : ar.getSize - start ≤ t.largestOffset := by rw [h.getSize, hscanned.offset, append_nil]
    have hnone : t.map.find? [] = none := by
      refine eq_none_iff_forall_ne_some.mpr fun x hx => ?_
      obtain ⟨_, b, _, _, hpath, _⟩ := (hscanned.find [] x).mp hx
      exact b.path_ne hpath
    have hmax : ar.pos = ar.maxData := by rw [h.maxData, hpos, hscanned.offset, append_nil]
    have hdone : ar = { ar with pos := ar.maxData } := congrArg (fun p => { ar with pos := p }) hmax
    rw [length_nil, extract, nextEntry, if_pos hend, bind_some]
    simp only [hnone, map_nil]
    rw [← hdone]
  | cons b todo ih =>
    have hnew := path_ne_of_nodup hnodup
    have hsplit := append_cons done b todo
    have hentered := hscanned.enter hnew
    have hfind : (t.enter b).map.find? b.path =
        some ((archive done).length + 512, b.header.cacheSize b.contents.length) :=
      (hentered.find _ _).mpr ⟨done, b, [], rfl, rfl, rfl⟩
    have hcontents : slice ar.data (ar.pos + 512) b.contents.length = b.contents := by
      refine h.slice_eq (a := archive done ++ b.header.bytes) (c := List.replicate
        (alignUp512 b.contents.length - b.contents.length) 0 ++ archive todo) ?_ ?_ rfl
      · rw [archive_append, archive_cons, Block.bytes]
        simp only [append_assoc]
      rw [hpos, hscanned.offset, length_append, b.header.length_bytes, add_assoc]
    have hrest : ∀ pos, pos = start + (t.enter b).largestOffset →
        extract start (todo.length + 1) { ar with pos := pos } (t.enter b) =
          some (todo.map Block.member, { ar with pos := ar.maxData }) := fun pos hpos' =>
      ih ⟨by rw [← hsplit]; exact h.data, by rw [← hsplit]; exact h.maxData⟩ hentered hpos'
        (by rw [← hsplit]; exact hnodup) fun x hx => hkind x (mem_cons_of_mem _ hx)
    rw [length_cons, extract, nextEntry_block h hscanned hpos, bind_some]
    simp only [hfind, filetype_cacheSize, b.spells.filetype]
    rcases hkind b mem_cons_self with htype | ⟨htype, hnil⟩
    · have hsize : start + ((archive done).length + 512) +
          (b.header.cacheSize b.contents.length).cachedSize - (ar.pos + 512) =
          b.contents.length := by
        rw [cachedSize_cacheSize _ b.size_lt, hpos, hscanned.offset]
        omega
      rw [htype, if_pos (.inr rfl), hsize, hcontents, hrest _ rfl, map_some, map_cons, Block.member, htype]
    have hpos' : ar.pos + 512 = start + (t.enter b).largestOffset := by
      have hzero : alignUp512 ([] : Bytes).length = 0 := rfl
      rw [hpos, TarObject.enter, b.length_bytes, hnil, hzero]
      dsimp only
      omega
    rw [htype, if_neg (by decide), if_pos rfl, hrest _ hpos', map_some, map_cons, Block.member, htype, hnil]

end

end Rpcsx.Tar
