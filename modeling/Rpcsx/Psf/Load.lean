import Rpcsx.Psf.Save

/-!
# Loading what was saved

The reader goes over the entry table and finds each value where it was written. The keys it finds
are those that the 16 bits of `key_off` lead to (`storedEntries`), so a saved registry comes back
exactly when these, with the values, are its entries again and its category is known.
-/

namespace Rpcsx.Psf

open Lib Util OrdMap ContainerStream List Entry

/-! ## Reading the tables back -/

theorem field_skip {size n pos : Nat} (rest : Bytes) (size' : Nat) (h : size ≤ pos) :
    field (leBytes size n ++ rest) pos size' = field rest (pos - size) size' := by
  have hpos : pos = (leBytes size n).length + (pos - size) := by
    rw [length_leBytes]
    omega
  rw [field, hpos, slice_append_right, length_leBytes, Nat.add_sub_cancel_left, field]

theorem field_first (size n : Nat) (rest : Bytes) : field (leBytes size n ++ rest) 0 size = n % 256 ^ size := by
  rw [field, ← nil_append (leBytes size n), slice_append (length_nil (α := UInt8)).symm (by simp), ofLeBytes_leBytes]

theorem field_last (size n : Nat) : field (leBytes size n) 0 size = n % 256 ^ size := by
  rw [← append_nil (leBytes size n), field_first]

structure Header.Fits (h : Header) : Prop where
  offKeyTable : h.offKeyTable < 256 ^ 4
  offDataTable : h.offDataTable < 256 ^ 4
  entriesNum : h.entriesNum < 256 ^ 4

theorem Header.Fits.fields {h : Header} (hfits : h.Fits) :
    field h.bytes 0 4 = magic ∧ field h.bytes 4 4 = version ∧ field h.bytes 8 4 = h.offKeyTable ∧
    field h.bytes 12 4 = h.offDataTable ∧ field h.bytes 16 4 = h.entriesNum := by
  simp only [Header.bytes, append_assoc]
  refine ⟨?_, ?_, ?_, ?_, ?_⟩
  · rw [field_first]
    rfl
  · rw [field_skip _ _ (by decide), field_first]
    rfl
  · rw [field_skip _ _ (by decide), field_skip _ _ (by decide), field_first, Nat.mod_eq_of_lt hfits.offKeyTable]
  · rw [field_skip _ _ (by decide), field_skip _ _ (by decide), field_skip _ _ (by decide),
      field_first, Nat.mod_eq_of_lt hfits.offDataTable]
  rw [field_skip _ _ (by decide), field_skip _ _ (by decide), field_skip _ _ (by decide),
    field_skip _ _ (by decide), field_last, Nat.mod_eq_of_lt hfits.entriesNum]

structure Index.Fits (i : Index) : Prop where
  keyOff : i.keyOff < 256 ^ 2
  paramFmt : i.paramFmt < 256 ^ 2
  paramLen : i.paramLen < 256 ^ 4
  paramMax : i.paramMax < 256 ^ 4
  dataOff : i.dataOff < 256 ^ 4

theorem Index.Fits.readIndex_zero {i : Index} (hfits : i.Fits) (rest : Bytes) : readIndex (i.bytes ++ rest) 0 = i := by
  simp only [readIndex, Index.bytes, append_assoc, Nat.mul_zero, Nat.zero_add]
  rw [field_first, field_skip _ 2 (by decide), field_first, field_skip _ 4 (by decide),
    field_skip _ 4 (by decide), field_first, field_skip _ 4 (by decide), field_skip _ 4 (by decide),
    field_skip _ 4 (by decide), field_first, field_skip _ 4 (by decide), field_skip _ 4 (by decide),
    field_skip _ 4 (by decide), field_skip _ 4 (by decide), field_first,
    Nat.mod_eq_of_lt hfits.keyOff, Nat.mod_eq_of_lt hfits.paramFmt, Nat.mod_eq_of_lt hfits.paramLen,
    Nat.mod_eq_of_lt hfits.paramMax, Nat.mod_eq_of_lt hfits.dataOff]

theorem readIndex_succ (i : Index) (rest : Bytes) (n : Nat) :
    readIndex (i.bytes ++ rest) (n + 1) = readIndex rest n := by
  have hskip : ∀ pos size, field (i.bytes ++ rest) (16 * (n + 1) + pos) size = field rest (16 * n + pos) size := by
    intro pos size
    have hpos : 16 * (n + 1) + pos = i.bytes.length + (16 * n + pos) := by
      rw [length_index]
      omega
    rw [field, hpos, slice_append_right, field]
  have hzero : field (i.bytes ++ rest) (16 * (n + 1)) 2 = field rest (16 * n) 2 := hskip 0 2
  simp only [readIndex, hskip, hzero]

/-- The entry table is read back. -/
theorem readIndex_indices {l : List Index} (h : ∀ i ∈ l, i.Fits) :
    (range l.length).map (readIndex (l.flatMap Index.bytes)) = l := by
  induction l with
  | nil => rfl
  | cons i l ih =>
    rw [length_cons, range_succ_eq_map, map_cons, map_map, flatMap_cons, (h i mem_cons_self).readIndex_zero]
    congr 1
    refine Eq.trans (map_congr_left fun n _ => ?_) (ih fun j hj => h j (mem_cons_of_mem _ hj))
    exact readIndex_succ i _ n

variable {psf : List (Bytes × Entry)} {errc : Error} {pad : Bytes} {e : Entry} {off : Nat}

theorem indicesFrom_fits {k d : Nat} (h : ∀ x ∈ psf, x.2.isValid)
    (hd : d + (psf.map fun x => x.2.maxSize.toNat).sum < 0x100000000) : ∀ i ∈ indicesFrom k d psf, i.Fits := by
  induction psf generalizing k d with
  | nil => simp [indicesFrom]
  | cons x rest ih =>
    obtain ⟨key, e⟩ := x
    simp only [map_cons, sum_cons] at hd
    have hmax := e.maxSize.toNat_lt
    have hlen := len_le (h _ mem_cons_self)
    intro i hi
    rcases mem_cons.mp hi with rfl | hi
    · refine ⟨Nat.mod_lt _ (by decide), ?_, Nat.lt_of_le_of_lt hlen hmax, hmax, ?_⟩
      · have hcode : ∀ t : Format, t.code < 256 ^ 2 := by
          intro t
          cases t <;> decide
        exact hcode e.type
      exact Nat.lt_of_le_of_lt (Nat.le_add_right _ _) hd
    exact ih (fun y hy => h y (mem_cons_of_mem _ hy)) (by omega) i hi

/-! ## The loop over the entry table -/

/-- What a value that was written is read back as. -/
theorem read_data (front back : Bytes) (hvalid : e.isValid) (hnul : e.type = .string → 0 ∉ e.valueString) :
    ∃ bytes, read (front ++ e.data ++ back) front.length e.len = some bytes ∧ match e.type with
      | .integer => ofInteger (UInt32.ofNat (ofLeBytes bytes)) = e
      | .string => ofString .string (UInt32.ofNat e.maxSize.toNat) (cString bytes) = some e
      | .array => ofString .array (UInt32.ofNat e.maxSize.toNat) bytes = some e := by
  cases htype : e.type with
  | integer =>
    obtain ⟨hmax, hstr⟩ := e.integer_wf htype
    refine ⟨leBytes 4 e.valueInteger.toNat, ?_, ?_⟩
    · rw [data, htype]
      exact read_piece rfl (by simp [len, htype])
    have hlt : e.valueInteger.toNat < 256 ^ 4 := e.valueInteger.toNat_lt
    rw [ofLeBytes_leBytes, Nat.mod_eq_of_lt hlt, UInt32.ofNat_toNat]
    exact ext htype.symm hmax.symm rfl hstr.symm
  | string =>
    obtain ⟨hmax, hint⟩ := e.string_wf htype
    have hlen : e.len = e.valueString.length + 1 := by simp [len, htype]
    have hroom : e.maxSize.toNat - e.valueString.length = (e.maxSize.toNat - e.valueString.length - 1) + 1 := by
      have := len_le hvalid
      omega
    refine ⟨e.valueString ++ [0], ?_, ?_⟩
    · have hdata : e.data = e.valueString ++ [0] ++ replicate (e.maxSize.toNat - e.valueString.length - 1) 0 := by
        rw [data, htype]
        rw [hroom, replicate_succ, append_assoc]
        rfl
      rw [hdata, ← append_assoc, append_assoc _ _ back]
      exact read_piece rfl (by simp [hlen])
    rw [cString_append_zero (hnul htype), UInt32.ofNat_toNat, ofString, dif_pos hmax]
    exact congrArg some (ext htype.symm rfl hint.symm rfl)
  | array =>
    obtain ⟨hmax, hint⟩ := e.array_wf htype
    refine ⟨e.valueString, ?_, ?_⟩
    · rw [data, htype]
      rw [← append_assoc, append_assoc _ _ back]
      exact read_piece rfl (by simp [len, htype])
    dsimp only
    rw [UInt32.ofNat_toNat, ofString, dif_pos hmax]
    exact congrArg some (ext htype.symm rfl hint.symm rfl)

def orCorrupt : Option Registry → Except Failure Registry
  | some sfo => .ok sfo
  | none => .error (.error .corrupt)

theorem check_of {p : Prop} [Decidable p] (h : p) : check (decide p) errc = .ok () := by
  rw [check, decide_eq_true h, if_pos rfl]

theorem checkRead_of {stream bytes : Bytes} {pos size : Nat} (h : read stream pos size = some bytes) :
    checkRead stream pos size errc = .ok bytes := by rw [checkRead, h]

theorem ok_bind {α β : Type} (a : α) (f : α → Except Failure β) : (Except.ok a >>= f) = f a := rfl

theorem loadEntry_eq {front mid back keys : Bytes} {header : Header}
    (sfo : Registry) (hvalid : e.isValid) (hnul : e.type = .string → 0 ∉ e.valueString)
    (hfront : header.offDataTable = front.length) (hpos : 0 < front.length)
    (hlt : front.length + mid.length < 0x100000000)
    (hoff : off < header.offDataTable - header.offKeyTable) :
    loadEntry (front ++ mid ++ e.data ++ back) header keys sfo ⟨off, e.type.code, e.len, e.maxSize.toNat, mid.length⟩ =
    orCorrupt (if (sfo.find? (cString (keys.drop off))).isNone then
      some (sfo.insert (cString (keys.drop off)) e) else none) := by
  have hlen := len_le hvalid
  have hmax := e.maxSize_pos
  have hsize : (front ++ mid ++ e.data ++ back).length = front.length + mid.length + e.maxSize.toNat + back.length := by
    rw [length_append, length_append, length_append, length_data hvalid]
  obtain ⟨bytes, hread, hentry⟩ := read_data (front ++ mid) back hvalid hnul
  rw [length_append] at hread
  have h1 : check (decide (off < header.offDataTable - header.offKeyTable)) .corrupt = .ok () := by simp [check, hoff]
  have h2 : check (decide (e.len ≤ e.maxSize.toNat)) .corrupt = .ok () := by simp [check, hlen]
  have h3 : check (decide (mid.length < (front ++ mid ++ e.data ++ back).length -
      header.offDataTable)) .corrupt = .ok () := by
    rw [hsize, hfront]
    have : mid.length < front.length + mid.length + e.maxSize.toNat + back.length - front.length := by omega
    simp only [check, this, decide_true, if_true]
  have h4 : check (decide (e.maxSize.toNat < (front ++ mid ++ e.data ++ back).length -
      mid.length)) .corrupt = .ok () := by
    rw [hsize]
    have : e.maxSize.toNat < front.length + mid.length + e.maxSize.toNat + back.length - mid.length := by omega
    simp only [check, this, decide_true, if_true]
  have hpos' : (header.offDataTable + mid.length) % 0x100000000 = front.length + mid.length := by
    rw [hfront, Nat.mod_eq_of_lt hlt]
  simp only [loadEntry, h1, h2, h3, h4, hpos', bind, Except.bind, pure, Except.pure]
  cases hfind : sfo.find? (cString (keys.drop off)) with
  | some x => rfl
  | none =>
    have hplace : ∀ e, (sfo.emplace (cString (keys.drop off)) e).1 = sfo.insert (cString (keys.drop off)) e := by
      intro e
      rw [emplace, hfind]
      rfl
    have hcheck : check (none : Option Entry).isNone .corrupt = .ok () := rfl
    simp only [hcheck, hplace]
    cases htype : e.type with
    | integer =>
      rw [htype] at hentry
      have hlen4 : e.len = 4 := by simp [len, htype]
      have hmax4 : e.maxSize.toNat = 4 := by simp [(e.integer_wf htype).1]
      rw [hlen4] at hread
      simp only [hlen4, hmax4, checkRead, hread, and_self, if_true]
      rw [hentry]
      rfl
    | string =>
      rw [htype] at hentry
      have hne : ¬ (Format.string.code = Format.integer.code ∧ e.maxSize.toNat = 4 ∧ e.len = 4) :=
        fun h => absurd h.1 (by decide)
      rw [if_neg hne, if_pos rfl]
      simp only [checkRead, hread, loadText, if_true]
      rw [hentry]
      rfl
    | array =>
      rw [htype] at hentry
      have hne : ¬ (Format.array.code = Format.integer.code ∧ e.maxSize.toNat = 4 ∧ e.len = 4) :=
        fun h => absurd h.1 (by decide)
      rw [if_neg hne, if_neg (by decide), if_pos rfl]
      simp only [checkRead, hread, loadText]
      rw [if_neg (by decide), hentry]
      rfl

/-- The entries that the reader finds: the value is the one that was written, the key the one that
begins at the low 16 bits of its offset. -/
def storedEntries (keys : Bytes) (k : Nat) : List (Bytes × Entry) → List (Bytes × Entry)
  | [] => []
  | (key, e) :: rest =>
    (cString (keys.drop (k % 0x10000)), e) :: storedEntries keys (k + (key.length + 1)) rest

theorem loadEntries_eq (front mid keys : Bytes) (header : Header) (k : Nat) (sfo : Registry)
    (hvalid : ∀ x ∈ psf, x.2.isValid) (hnul : ∀ x ∈ psf, x.2.type = .string → 0 ∉ x.2.valueString)
    (hfront : header.offDataTable = front.length) (hpos : 0 < front.length)
    (hlt : front.length + mid.length + (dataTable psf).length < 0x100000000)
    (hkeys : k + (keyTable psf).length ≤ header.offDataTable - header.offKeyTable) :
    (indicesFrom k mid.length psf).foldlM (loadEntry (front ++ mid ++ dataTable psf) header keys) sfo =
    orCorrupt (sfo.insertNew (storedEntries keys k psf)) := by
  induction psf generalizing k mid sfo with
  | nil => rfl
  | cons x rest ih =>
    obtain ⟨key, e⟩ := x
    have hlen := length_keyTable_cons (key, e) rest
    dsimp only at hlen
    have hoff : k % 0x10000 < header.offDataTable - header.offKeyTable := Nat.lt_of_le_of_lt (Nat.mod_le _ _) (by omega)
    have hdata : front ++ mid ++ dataTable ((key, e) :: rest) = front ++ mid ++ e.data ++ dataTable rest := by
      rw [dataTable, flatMap_cons, ← append_assoc]
      rfl
    have hmid : mid.length + e.maxSize.toNat = (mid ++ e.data).length := by
      rw [length_append, length_data (hvalid _ mem_cons_self)]
    have hsum : (mid ++ e.data).length + (dataTable rest).length =
        mid.length + (dataTable ((key, e) :: rest)).length := by
      have hlength := congrArg length hdata
      simp only [length_append] at hlength ⊢
      omega
    rw [indicesFrom, storedEntries, foldlM_cons, hdata,
      loadEntry_eq sfo (hvalid _ mem_cons_self) (hnul _ mem_cons_self) hfront hpos (by omega) hoff,
      insertNew, foldlM_cons]
    split
    · rw [hmid, append_assoc front mid e.data]
      exact ih _ _ _ (fun y hy => hvalid y (mem_cons_of_mem _ hy))
        (fun y hy => hnul y (mem_cons_of_mem _ hy)) (by omega) (by omega)
    rfl

/-! ## The whole file -/

/-- The keys end with a terminator, so the padding behind them is not read. -/
theorem cString_drop_keyTable (pad : Bytes) (h : off < (keyTable psf).length) :
    cString ((keyTable psf ++ pad).drop off) = cString ((keyTable psf).drop off) := by
  obtain ⟨l, hl⟩ : ∃ l, keyTable psf = l ++ [0] := by
    rcases eq_nil_or_concat psf with rfl | ⟨init, x, rfl⟩
    · exact absurd h (by simp [keyTable])
    · exact ⟨keyTable init ++ x.1, by simp [keyTable]⟩
  have hmem : (0 : UInt8) ∈ (keyTable psf).drop off := by
    rw [hl, length_append, length_singleton] at h
    rw [hl, drop_append_of_le_length (by omega)]
    simp
  rw [drop_append_of_le_length h.le, cString_append_of_mem hmem]

theorem storedEntries_pad (pad : Bytes) {k : Nat} {l : List (Bytes × Entry)}
    (h : k + (keyTable l).length ≤ (keyTable psf).length) :
    storedEntries (keyTable psf ++ pad) k l = storedEntries (keyTable psf) k l := by
  induction l generalizing k with
  | nil => rfl
  | cons x l ih =>
    have hlen := length_keyTable_cons x l
    have hoff : k % 0x10000 < (keyTable psf).length := Nat.lt_of_le_of_lt (Nat.mod_le _ _) (by omega)
    rw [storedEntries, storedEntries, cString_drop_keyTable pad hoff, ih (by omega)]

/-- What `load` makes of a saved registry. -/
theorem loadRegistry_saved {psf : Registry} (hvalid : ∀ x ∈ psf.entries, x.2.isValid)
    (hnul : ∀ x ∈ psf.entries, x.2.type = .string → 0 ∉ x.2.valueString) (hsize : fileSize psf.entries < 0x100000000)
    (hpad : pad.length = alignUp4 (keyTable psf.entries).length - (keyTable psf.entries).length) :
    loadRegistry ((headerOf psf.entries).bytes ++
      (indicesFrom 0 0 psf.entries).flatMap Index.bytes ++ (keyTable psf.entries ++ pad) ++ dataTable psf.entries) =
    (orCorrupt (empty.insertNew (storedEntries (keyTable psf.entries) 0 psf.entries))).bind
      fun sfo => (check (knownCategory sfo) .corrupt).bind fun _ => .ok sfo := by
  have halign := le_alignUp4 (keyTable psf.entries).length
  have hfits : (headerOf psf.entries).Fits := by
    simp only [fileSize, headerOf] at hsize
    refine ⟨?_, ?_, ?_⟩ <;> simp only [headerOf] <;> omega
  have hindices : ∀ i ∈ indicesFrom 0 0 psf.entries, i.Fits := by
    refine indicesFrom_fits hvalid ?_
    simp only [fileSize] at hsize
    omega
  obtain ⟨hmagic, hversion, hkey, hdata, hnum⟩ := hfits.fields
  generalize hH : (headerOf psf.entries).bytes = H at *
  generalize hI : (indicesFrom 0 0 psf.entries).flatMap Index.bytes = I at *
  generalize hK : keyTable psf.entries ++ pad = K at *
  have hHlen : H.length = 20 := by rw [← hH, length_header]
  have hIlen : I.length = 16 * psf.entries.length := by rw [← hI, length_indices, length_indicesFrom]
  have hKlen : K.length = alignUp4 (keyTable psf.entries).length := by
    rw [← hK, length_append, hpad]
    exact Nat.add_sub_cancel' halign
  have hread1 : read (H ++ I ++ K ++ dataTable psf.entries) 0 20 = some H := by
    rw [append_assoc, append_assoc]
    exact read_first hHlen.symm
  have hread2 : read (H ++ I ++ K ++ dataTable psf.entries) 20 (16 * (headerOf psf.entries).entriesNum) = some I := by
    rw [append_assoc]
    exact read_piece hHlen.symm hIlen.symm
  have hsub : (headerOf psf.entries).offDataTable - (headerOf psf.entries).offKeyTable = K.length := by
    rw [hKlen]
    exact Nat.add_sub_cancel_left _ _
  have hread3 : read (H ++ I ++ K ++ dataTable psf.entries) (headerOf psf.entries).offKeyTable
      ((headerOf psf.entries).offDataTable - (headerOf psf.entries).offKeyTable) = some K :=
    read_piece (by rw [length_append, hHlen, hIlen]; rfl) hsub
  have hlen : (H ++ I ++ K).length + ([] : Bytes).length + (dataTable psf.entries).length < 0x100000000 := by
    simp only [fileSize, headerOf] at hsize
    simp only [length_append, length_nil, hHlen, hIlen, hKlen, length_dataTable hvalid]
    omega
  have hloop := loadEntries_eq (H ++ I ++ K) [] K (headerOf psf.entries) 0 empty hvalid hnul
    (by rw [length_append, length_append, hHlen, hIlen, hKlen]; rfl)
    (by rw [length_append, length_append, hHlen]; omega) hlen
    (by rw [hsub, hKlen]; omega)
  rw [append_nil, length_nil, ← hK, storedEntries_pad pad (by omega), hK] at hloop
  have htable : (range (headerOf psf.entries).entriesNum).map (readIndex I) = indicesFrom 0 0 psf.entries := by
    rw [← hI, headerOf, ← length_indicesFrom 0 0 psf.entries]
    exact readIndex_indices hindices
  -- the checks on the header
  have h20 : 20 ≤ field H 8 4 := by
    rw [hkey]
    exact Nat.le_add_right _ _
  have hle : field H 8 4 ≤ field H 12 4 := by
    rw [hkey, hdata]
    exact Nat.le_add_right _ _
  have hend : field H 12 4 ≤ (H ++ I ++ K ++ dataTable psf.entries).length := by
    rw [hdata, length_append, length_append, length_append, hHlen, hIlen, hKlen]
    exact Nat.le_add_right _ _
  rw [loadRegistry, checkRead_of hread1, ok_bind, check_of hmagic, ok_bind, check_of hversion, ok_bind]
  dsimp only
  rw [check_of h20, ok_bind, check_of hle, ok_bind, check_of hend, ok_bind, hkey, hdata, hnum,
    checkRead_of hread2, ok_bind, checkRead_of hread3, ok_bind, htable, hloop]
  rfl

/-- A saved registry comes back exactly when its category is known and the reader finds its
keys. -/
theorem load_saved_iff {psf : Registry} (hvalid : ∀ x ∈ psf.entries, x.2.isValid)
    (hnul : ∀ x ∈ psf.entries, x.2.type = .string → 0 ∉ x.2.valueString) (hsize : fileSize psf.entries < 0x100000000)
    (hpad : pad.length = alignUp4 (keyTable psf.entries).length - (keyTable psf.entries).length) :
    load (some ((headerOf psf.entries).bytes ++
      (indicesFrom 0 0 psf.entries).flatMap Index.bytes ++ (keyTable psf.entries ++ pad) ++
      dataTable psf.entries)) = some ⟨psf, .ok⟩ ↔ knownCategory psf ∧
      (storedEntries (keyTable psf.entries) 0 psf.entries).Perm psf.entries := by
  have hnew : empty.insertNew (storedEntries (keyTable psf.entries) 0 psf.entries) =
      some psf ↔ (storedEntries (keyTable psf.entries) 0 psf.entries).Perm psf.entries :=
    insertNew_eq_some_iff
  rw [load, loadRegistry_saved hvalid hnul hsize hpad, ← hnew]
  cases empty.insertNew (storedEntries (keyTable psf.entries) 0 psf.entries) with
  | none => simp [orCorrupt, Except.bind]
  | some sfo =>
    cases hcat : knownCategory sfo with
    | false =>
      simp only [orCorrupt, Except.bind, check, hcat]
      refine ⟨(fun h => by simp at h), ?_⟩
      rintro ⟨hpsf, h⟩
      rw [← Option.some.inj h, hcat] at hpsf
      cases hpsf
    | true =>
      simp only [orCorrupt, Except.bind, check, hcat, if_true, Option.some.injEq]
      refine ⟨fun h => ?_, fun h => by rw [h.2]⟩
      obtain ⟨rfl, -⟩ := LoadResult.mk.inj h
      exact ⟨hcat, rfl⟩

/-! ## Keys below 64 KiB -/

def keyOffsets (k : Nat) : List (Bytes × Entry) → List Nat
  | [] => []
  | (key, _) :: rest => k :: keyOffsets (k + (key.length + 1)) rest

/-- Keys that begin in the first 64 KiB of the key table are found. -/
theorem storedEntries_eq (front : Bytes) (hnul : ∀ x ∈ psf, 0 ∉ x.1)
    (h : ∀ off ∈ keyOffsets front.length psf, off < 0x10000) :
    storedEntries (front ++ keyTable psf) front.length psf = psf := by
  induction psf generalizing front with
  | nil => rfl
  | cons x rest ih =>
    obtain ⟨key, e⟩ := x
    have hkey : front.length < 0x10000 := h _ mem_cons_self
    have htable : front ++ keyTable ((key, e) :: rest) = (front ++ (key ++ [0])) ++ keyTable rest := by
      rw [keyTable, flatMap_cons, ← append_assoc]
      rfl
    have hlen : front.length + (key.length + 1) = (front ++ (key ++ [0])).length := by simp
    have hdrop : cString ((front ++ keyTable ((key, e) :: rest)).drop front.length) = key := by
      rw [htable, append_assoc, drop_left, append_assoc]
      exact cString_append_zero (hnul _ mem_cons_self) _
    rw [storedEntries, Nat.mod_eq_of_lt hkey, hdrop, htable, hlen,
      ih _ (fun y hy => hnul y (mem_cons_of_mem _ hy)) fun off hoff => ?_]
    refine h off ?_
    rw [keyOffsets, hlen]
    exact mem_cons_of_mem _ hoff

/-- **Round trip of a registry**: a registry of valid entries that fits into 4 GiB is saved, and
loading it gives it back exactly when its category is known and the keys that the reader finds at the
low 16 bits of their offsets are its keys; they are whenever every key begins below 64 KiB. -/
theorem load_saveObject (psf : Registry) (init : Bytes) (hkeys : ∀ x ∈ psf.entries, 0 ∉ x.1)
    (hvalues : ∀ x ∈ psf.entries, x.2.type = .string → 0 ∉ x.2.valueString)
    (hvalid : ∀ x ∈ psf.entries, x.2.isValid = true) (hsize : fileSize psf.entries < 0x100000000) :
    ∃ bytes, saveObject psf init = some bytes ∧ bytes.length = fileSize psf.entries ∧
      (load (some bytes) = some ⟨psf, .ok⟩ ↔ knownCategory psf = true ∧
        (storedEntries (keyTable psf.entries) 0 psf.entries).Perm psf.entries) ∧
      ((∀ off ∈ keyOffsets 0 psf.entries, off < 0x10000) →
        storedEntries (keyTable psf.entries) 0 psf.entries = psf.entries) := by
  obtain ⟨pad, hpad, hsave⟩ := saveObject_eq init hvalid hsize
  refine ⟨_, hsave, ?_, load_saved_iff hvalid hvalues hsize hpad, fun h => storedEntries_eq [] hkeys h⟩
  have halign := le_alignUp4 (keyTable psf.entries).length
  rw [length_append, length_append, length_append, length_append, length_header,
    length_indices, length_indicesFrom, length_dataTable hvalid, hpad, Nat.add_sub_cancel' halign]
  rfl

theorem text_wf {maxSize : UInt32} (h : 1 < maxSize) : Format.string = .string → 1 < maxSize ∧ (0 : UInt32) = 0 :=
  fun _ => ⟨h, rfl⟩

theorem text_array (maxSize : UInt32) : Format.string = .array → 0 < maxSize ∧ (0 : UInt32) = 0 := by rintro ⟨⟩

def text (maxSize : UInt32) (value : String) (h : 1 < maxSize) : Entry :=
  ⟨.string, maxSize, 0, ascii value, nofun, text_wf h, text_array maxSize⟩

def discTitle : Registry :=
  ⟨[(ascii "CATEGORY", text 4 "DG" (by decide)), (ascii "PARENTAL_LEVEL", Entry.ofInteger 5)],
    by decide⟩

theorem load_saveObject_discTitle :
    ∃ bytes, saveObject discTitle [] = some bytes ∧ load (some bytes) = some ⟨discTitle, .ok⟩ := by
  obtain ⟨bytes, hsave, -, hload, hstored⟩ := load_saveObject discTitle [] (by decide) (by decide)
    (by decide) (by decide)
  refine ⟨bytes, hsave, hload.mpr ⟨by decide, ?_⟩⟩
  rw [hstored (by decide)]

def untitled : Registry := ⟨[(ascii "TITLE", text 8 "A" (by decide))], by decide⟩

/-- A title with a key of 65535 bytes, so that the next key begins at 65536. -/
def longKey : Registry :=
  ⟨[(replicate 0xFFFF 0x41, Entry.ofInteger 0), (ascii "CATEGORY", text 4 "DG" (by decide))],
    pairwise_pair.mpr (List.Lex.rel (by decide))⟩

/-- Two registries that meet every condition on keys, values and size and do not come back: the one
has no category, of the other the second key begins at 64 KiB, where the reader finds the first. -/
theorem saved_but_not_loaded : (∃ bytes, saveObject untitled [] = some bytes ∧
      load (some bytes) = some ⟨OrdMap.empty, .corrupt⟩) ∧
    ((∀ x ∈ longKey.entries, 0 ∉ x.1 ∧ (x.2.type = .string → 0 ∉ x.2.valueString) ∧ x.2.isValid = true) ∧
      fileSize longKey.entries < 0x100000000 ∧ knownCategory longKey = true ∧
      ∃ bytes, saveObject longKey [] = some bytes ∧ load (some bytes) ≠ some ⟨longKey, .ok⟩) := by
  refine ⟨⟨_, rfl, by decide +kernel⟩, ?_⟩
  have hfirst : (0 : UInt8) ∉ replicate 0xFFFF (0x41 : UInt8) := by
    rw [mem_replicate]
    exact fun h => absurd h.2 (by decide)
  have hentries : ∀ x ∈ longKey.entries, 0 ∉ x.1 ∧ (x.2.type = .string → 0 ∉ x.2.valueString) ∧ x.2.isValid := by
    intro x hx
    rcases mem_pair.mp hx with rfl | rfl
    · exact ⟨hfirst, nofun, rfl⟩
    · exact ⟨by decide, by decide, by decide⟩
  have hlen : (keyTable longKey.entries).length = 0x10009 := by
    simp only [keyTable, longKey, flatMap_cons, flatMap_nil, length_append, length_replicate]
    rfl
  have hsize : fileSize longKey.entries < 0x100000000 := by
    rw [fileSize, headerOf, hlen]
    decide
  have hcat : knownCategory longKey := by decide +kernel
  obtain ⟨pad, hpad, hsave⟩ := saveObject_eq [] (fun x hx => (hentries x hx).2.2) hsize
  refine ⟨hentries, hsize, hcat, _, hsave, fun hload => ?_⟩
  have hperm := ((load_saved_iff (fun x hx => (hentries x hx).2.2)
    (fun x hx => (hentries x hx).2.1) hsize hpad).mp hload).2
  -- both keys are read from the front of the key table
  have hoff : (0 + ((replicate 0xFFFF (0x41 : UInt8)).length + 1)) % 0x10000 = 0 % 0x10000 := by rw [length_replicate]
  have hkeys := (hperm.map Prod.fst).nodup_iff.mpr (by
      rw [List.Nodup, pairwise_map]
      exact longKey.sorted.imp ne_of_lt)
  generalize keyTable longKey.entries = table at hkeys
  rw [longKey, storedEntries, storedEntries, storedEntries, hoff] at hkeys
  simp at hkeys

end Rpcsx.Psf
