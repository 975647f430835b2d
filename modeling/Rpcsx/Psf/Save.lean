import Rpcsx.Psf.Basic

/-!
# What a saved registry looks like

For a registry of valid entries that fits into 4 GiB, `saveObject` returns, and the file it writes
is the concatenation of the header, the entry table, the key table, up to three bytes of padding and
the values (`saveObject_eq`). What the vector held before shows only in the padding.
-/

namespace Rpcsx.Psf

open Lib Util ContainerStream List Option Entry

/-! ## The parts of the file -/

/-- The length of a value as the entry table gives it: a string is counted with its terminator. -/
def Entry.len (e : Entry) : Nat :=
  match e.type with
  | .string => e.valueString.length + 1
  | .array => e.valueString.length
  | .integer => 4

def Entry.data (e : Entry) : Bytes :=
  match e.type with
  | .integer => leBytes 4 e.valueInteger.toNat
  | .string | .array => e.valueString ++ List.replicate (e.maxSize.toNat - e.valueString.length) 0

def keyTable (psf : List (Bytes × Entry)) : Bytes := psf.flatMap fun x => x.1 ++ [0]

def dataTable (psf : List (Bytes × Entry)) : Bytes := psf.flatMap fun x => x.2.data

def indicesFrom (k d : Nat) : List (Bytes × Entry) → List Index
  | [] => []
  | (key, e) :: rest =>
    ⟨k % 0x10000, e.type.code, e.len, e.maxSize.toNat, d⟩ ::
      indicesFrom (k + (key.length + 1)) (d + e.maxSize.toNat) rest

def headerOf (psf : List (Bytes × Entry)) : Header :=
  ⟨20 + 16 * psf.length, 20 + 16 * psf.length + alignUp4 (keyTable psf).length, psf.length⟩

def fileSize (psf : List (Bytes × Entry)) : Nat :=
  (headerOf psf).offDataTable + (psf.map fun x => x.2.maxSize.toNat).sum

/-! ## Their lengths -/

@[simp] theorem length_header (h : Header) : h.bytes.length = 20 := by simp [Header.bytes]

@[simp] theorem length_index (i : Index) : i.bytes.length = 16 := by simp [Index.bytes]

theorem length_indices (l : List Index) : (l.flatMap Index.bytes).length = 16 * l.length := by
  induction l with
  | nil => rfl
  | cons i l ih =>
    rw [flatMap_cons, length_append, length_index, ih, length_cons]
    omega

theorem length_indicesFrom (k d : Nat) (psf : List (Bytes × Entry)) : (indicesFrom k d psf).length = psf.length := by
  induction psf generalizing k d with
  | nil => rfl
  | cons x rest ih => simp [indicesFrom, ih]

theorem length_keyTable_cons (x : Bytes × Entry) (rest : List (Bytes × Entry)) :
    (keyTable (x :: rest)).length = x.1.length + 1 + (keyTable rest).length := by
  rw [keyTable, flatMap_cons, length_append, length_append]
  rfl

theorem le_alignUp4 (n : Nat) : n ≤ alignUp4 n := by
  unfold alignUp4
  omega

namespace Entry

variable {e : Entry}

theorem max_true : e.max true = e.maxSize := by simp [max]

theorem maxSize_pos (e : Entry) : 0 < e.maxSize.toNat := by
  cases htype : e.type with
  | integer => simp [(e.integer_wf htype).1]
  | string =>
    have h := UInt32.lt_iff_toNat_lt.mp (e.string_wf htype).1
    exact Nat.lt_of_le_of_lt (Nat.zero_le _) h
  | array => exact UInt32.lt_iff_toNat_lt.mp (e.array_wf htype).1

/-- A valid value fits into its room, with its terminator. -/
theorem len_le (h : e.isValid) : e.len ≤ e.maxSize.toNat := by
  cases htype : e.type with
  | integer => simp [len, htype, (e.integer_wf htype).1]
  | string =>
    have hmax : 1 < e.maxSize.toNat := UInt32.lt_iff_toNat_lt.mp (e.string_wf htype).1
    have hsub : (e.maxSize - 1).toNat = e.maxSize.toNat - 1 :=
      UInt32.toNat_sub_of_le _ _ (UInt32.le_iff_toNat_le.mpr (by simpa using hmax.le))
    simp only [isValid, htype, max, decide_eq_true_eq] at h
    simp only [Bool.not_false, decide_true, Bool.and_self, if_true, hsub] at h
    simp only [len, htype]
    omega
  | array =>
    simp only [isValid, htype, max, decide_eq_true_eq] at h
    simpa [len, htype] using h

theorem length_le_len (e : Entry) : e.valueString.length ≤ e.len := by
  cases htype : e.type with
  | integer => simp [(e.integer_wf htype).2]
  | string => simp [len, htype]
  | array => simp [len, htype]

theorem size_eq (h : e.isValid) : e.size = some e.len := by
  have hle := len_le h
  have hmax := e.maxSize.toNat_lt
  cases htype : e.type with
  | integer => simp [size, len, htype]
  | string =>
    simp only [len, htype] at hle
    have hlt : e.valueString.length + 1 < 0x100000000 := by omega
    simp [size, len, htype, narrow, hlt, hle]
  | array =>
    simp only [len, htype] at hle
    have hlt : e.valueString.length < 0x100000000 := by omega
    simp [size, len, htype, narrow, hlt, hle]

theorem length_data (h : e.isValid) : e.data.length = e.maxSize.toNat := by
  have hle := Nat.le_trans e.length_le_len (len_le h)
  cases htype : e.type with
  | integer => simp [data, htype, (e.integer_wf htype).1]
  | string =>
    simp only [data, htype, length_append, length_replicate]
    omega
  | array =>
    simp only [data, htype, length_append, length_replicate]
    omega

end Entry

variable {psf : List (Bytes × Entry)}

theorem length_dataTable (h : ∀ x ∈ psf, x.2.isValid) :
    (dataTable psf).length = (psf.map fun x => x.2.maxSize.toNat).sum := by
  rw [dataTable, length_flatMap]
  congr 1
  exact map_congr_left fun x hx => length_data (h x hx)

/-! ## Writing them -/

theorem narrow_eq {n : Nat} (h : n < 0x100000000) : narrow n = some n := if_pos h

theorem makeIndices_eq {k d : Nat} (h : ∀ x ∈ psf, x.2.isValid) (hk : k + (keyTable psf).length < 0x100000000)
    (hd : d + (psf.map fun x => x.2.maxSize.toNat).sum < 0x100000000) :
    makeIndices k d psf = some (indicesFrom k d psf, k + (keyTable psf).length) := by
  induction psf generalizing k d with
  | nil => rfl
  | cons x rest ih =>
    obtain ⟨key, e⟩ := x
    have hlen := length_keyTable_cons (key, e) rest
    dsimp only at hlen
    simp only [map_cons, sum_cons] at hd
    rw [hlen] at hk
    rw [makeIndices, narrow_eq (by omega), size_eq (h _ mem_cons_self), narrow_eq (by omega), narrow_eq (by omega)]
    simp only [bind_eq_bind, bind_some, max_true]
    rw [ih (fun x hx => h x (mem_cons_of_mem _ hx)) (by omega) (by omega), hlen]
    simp [indicesFrom, Nat.add_assoc]

theorem saveKeys_behind {s : ContainerStream} {done : Bytes} (h : s.Behind done)
    (psf : List (Bytes × Entry)) : (saveKeys s psf).Behind (done ++ keyTable psf) := by
  induction psf generalizing s done with
  | nil => simpa [saveKeys, keyTable] using h
  | cons x rest ih =>
    have hx := (h.write x.1).write [0]
    have hrest := ih hx
    rw [keyTable, flatMap_cons, ← append_assoc, ← append_assoc]
    exact hrest

theorem saveValue_end (obj : Bytes) {e : Entry} (h : e.isValid) :
    saveValue ⟨obj, obj.length⟩ e = ⟨obj ++ e.data, (obj ++ e.data).length⟩ := by
  cases htype : e.type with
  | integer => simp [saveValue, data, htype, write_end]
  | string =>
    simp only [saveValue, data, htype, h, if_true, write_end, max_true, truncAt_end, append_assoc]
  | array =>
    simp only [saveValue, data, htype, h, if_true, write_end, max_true, truncAt_end, append_assoc]

theorem saveValues_end (obj : Bytes) (h : ∀ x ∈ psf, x.2.isValid) :
    (psf.foldl (fun s x => saveValue s x.2) ⟨obj, obj.length⟩).obj = obj ++ dataTable psf := by
  induction psf generalizing obj with
  | nil => simp [dataTable]
  | cons x rest ih =>
    rw [foldl_cons, saveValue_end obj (h _ mem_cons_self), ih _ fun y hy => h y (mem_cons_of_mem _ hy), append_assoc]
    rfl

theorem saveFile_eq (init : Bytes) (h : ∀ x ∈ psf, x.2.isValid) :
    ∃ pad : Bytes, pad.length = alignUp4 (keyTable psf).length - (keyTable psf).length ∧
      saveFile init (headerOf psf) (indicesFrom 0 0 psf) psf = (headerOf psf).bytes ++
        (indicesFrom 0 0 psf).flatMap Index.bytes ++ (keyTable psf ++ pad) ++ dataTable psf := by
  have hpad := le_alignUp4 (keyTable psf).length
  have hbehind : ContainerStream.Behind ⟨init, 0⟩ [] := ⟨rfl, List.nil_prefix⟩
  have hkeys := saveKeys_behind ((hbehind.write (headerOf psf).bytes).write
    ((indicesFrom 0 0 psf).flatMap Index.bytes)) psf
  obtain ⟨pad, hlen, htrunc⟩ := hkeys.truncAt (alignUp4 (keyTable psf).length - (keyTable psf).length)
  refine ⟨pad, hlen, ?_⟩
  have hpos : ([] ++ (headerOf psf).bytes ++ (indicesFrom 0 0 psf).flatMap Index.bytes ++
      keyTable psf).length + (alignUp4 (keyTable psf).length - (keyTable psf).length) =
      (headerOf psf).offDataTable := by
    rw [nil_append, length_append, length_append, length_header, length_indices,
      length_indicesFrom, headerOf, Nat.add_assoc, Nat.add_sub_cancel' hpad]
  rw [hpos] at htrunc
  rw [saveFile, htrunc, saveValues_end _ h, nil_append, ← append_assoc _ _ pad]

/-- The file that is written. -/
theorem saveObject_eq {psf : Registry} (init : Bytes) (h : ∀ x ∈ psf.entries, x.2.isValid)
    (hsize : fileSize psf.entries < 0x100000000) :
    ∃ pad : Bytes, pad.length = alignUp4 (keyTable psf.entries).length - (keyTable psf.entries).length ∧
      saveObject psf init = some ((headerOf psf.entries).bytes ++
        (indicesFrom 0 0 psf.entries).flatMap Index.bytes ++ (keyTable psf.entries ++ pad) ++
        dataTable psf.entries) := by
  obtain ⟨pad, hlen, hfile⟩ := saveFile_eq init h
  refine ⟨pad, hlen, ?_⟩
  have hpad := le_alignUp4 (keyTable psf.entries).length
  simp only [fileSize, headerOf] at hsize
  rw [saveObject, makeIndices_eq h (by omega) (by omega), ← hfile]
  simp only [bind_eq_bind, bind_some, Nat.zero_add]
  rw [narrow_eq (n := 20 + 16 * psf.entries.length) (by omega), bind_some,
    narrow_eq (by omega), bind_some, narrow_eq (by omega), bind_some]
  rfl

end Rpcsx.Psf
