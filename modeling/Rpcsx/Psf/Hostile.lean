import Rpcsx.Psf.Load

/-!
# Files from anywhere

What `psf::load` makes of a file that no one vouches for. Every entry of its table is checked field
by field, and these checks are weaker than what the constructor of an entry asks for. A text with no
room for itself gets through them and ends in a failed assertion, a text that fills its room without
a terminator becomes an entry that is not valid, and the sum that gives the place of a value has 32
bits only, so that in a large file it can lead back to before the values.
-/

namespace Rpcsx.Psf

open Lib Util OrdMap List

/-! ## The checks of one entry -/

namespace Index

variable (stream : Bytes) (header : Header) (keys : Bytes) (i : Index)

def format : Option Format :=
  if i.paramFmt = Format.integer.code ∧ i.paramMax = 4 ∧ i.paramLen = 4 then some .integer
  else if i.paramFmt = Format.string.code then some .string
  else if i.paramFmt = Format.array.code then some .array
  else none

def key : Bytes := cString (keys.drop i.keyOff)

def position : Nat := (header.offDataTable + i.dataOff) % 0x100000000

def contents : Bytes := slice stream (i.position header) i.paramLen

def entry : Option Entry :=
  match i.format with
  | none => none
  | some .integer => some (Entry.ofInteger (UInt32.ofNat (ofLeBytes (i.contents stream header))))
  | some .string =>
    Entry.ofString .string (UInt32.ofNat i.paramMax) (cString (i.contents stream header))
  | some .array => Entry.ofString .array (UInt32.ofNat i.paramMax) (i.contents stream header)

structure InBounds : Prop where
  keyOff : i.keyOff < header.offDataTable - header.offKeyTable
  paramLen : i.paramLen ≤ i.paramMax
  dataOff : i.dataOff < stream.length - header.offDataTable
  paramMax : i.paramMax < stream.length - i.dataOff

instance : Decidable (i.InBounds stream header) :=
  decidable_of_iff (i.keyOff < header.offDataTable - header.offKeyTable ∧ i.paramLen ≤ i.paramMax ∧
    i.dataOff < stream.length - header.offDataTable ∧ i.paramMax < stream.length - i.dataOff)
    ⟨fun h => ⟨h.1, h.2.1, h.2.2.1, h.2.2.2⟩, fun h => ⟨h.1, h.2, h.3, h.4⟩⟩

def Readable : Prop := i.position header + i.paramLen ≤ stream.length

instance : Decidable (i.Readable stream header) := inferInstanceAs (Decidable (_ ≤ _))

/-- The entry has a text and no room for it. -/
def Fatal : Prop := i.format = some .string ∧ i.paramMax ≤ 1 ∨ i.format = some .array ∧ i.paramMax = 0

instance : Decidable i.Fatal := inferInstanceAs (Decidable (_ ∨ _))

/-- The text takes all of its room and has no terminator. -/
def Unterminated : Prop :=
  i.format = some .string ∧ i.paramLen = i.paramMax ∧ 0 ∉ i.contents stream header

variable {stream header keys i}

/-- The place of a value is inside the file. -/
theorem InBounds.position_lt (h : i.InBounds stream header) : i.position header < stream.length := by
  have hdata := h.dataOff
  exact lt_of_le_of_lt (Nat.mod_le _ _) (by omega)

/-- The value stands behind the other tables unless the sum overflows. -/
theorem le_position_iff (hdata : header.offDataTable < 0x100000000) (hfits : i.Fits) :
    header.offDataTable ≤ i.position header ↔ header.offDataTable + i.dataOff < 0x100000000 := by
  have hoff : i.dataOff < 0x100000000 := hfits.dataOff
  rw [position]
  omega

/-- An entry that is not ignored has a value unless it is fatal. -/
theorem entry_eq_none_iff (hfits : i.Fits) : i.entry stream header = none ↔ i.format = none ∨ i.Fatal := by
  have hmax : (UInt32.ofNat i.paramMax).toNat = i.paramMax := UInt32.toNat_ofNat_of_lt' hfits.paramMax
  rw [entry, Fatal]
  cases hformat : i.format with
  | none => simp
  | some type =>
    cases type with
    | integer => simp
    | string => simp [Entry.ofString, UInt32.lt_iff_toNat_lt, hmax]
    | array => simp [Entry.ofString, UInt32.lt_iff_toNat_lt, hmax]

theorem length_contents (h : i.Readable stream header) : (i.contents stream header).length = i.paramLen := by
  rw [contents, length_slice, min_eq_left]
  rw [Readable] at h
  omega

/-- The entry that was read is valid unless its text has no terminator. -/
theorem InBounds.isValid_iff (h : i.InBounds stream header) (hfits : i.Fits)
    (hread : i.Readable stream header) {e : Entry} (he : i.entry stream header = some e) :
    e.isValid ↔ ¬ i.Unterminated stream header := by
  have hmax : (UInt32.ofNat i.paramMax).toNat = i.paramMax := UInt32.toNat_ofNat_of_lt' hfits.paramMax
  have hlen := h.paramLen
  have hcontents := length_contents hread
  rw [entry] at he
  rw [Unterminated]
  cases hformat : i.format with
  | none => simp [hformat] at he
  | some type =>
    cases type with
    | integer =>
      simp only [hformat, Option.some.injEq] at he
      simp [← he, Entry.ofInteger, Entry.isValid]
    | string =>
      simp only [hformat, Entry.ofString, Option.dite_none_right_eq_some, Option.some.injEq] at he
      obtain ⟨hroom, rfl⟩ := he
      have hsub : (UInt32.ofNat i.paramMax - 1).toNat = i.paramMax - 1 := by
        rw [UInt32.toNat_sub_of_le _ _ (UInt32.le_of_lt hroom), hmax]
        rfl
      have hle := length_cString_le (i.contents stream header)
      have hiff := length_cString_eq_iff (s := i.contents stream header)
      rw [UInt32.lt_iff_toNat_lt, hmax] at hroom
      have hone : (1 : UInt32).toNat = 1 := rfl
      simp only [Entry.isValid, Entry.max, Bool.not_false, Bool.true_and, decide_true, if_pos, hsub,
        decide_eq_true_eq, true_and, ← hiff, hcontents]
      omega
    | array =>
      simp only [hformat, Entry.ofString, Option.dite_none_right_eq_some, Option.some.injEq] at he
      obtain ⟨hroom, rfl⟩ := he
      simp [Entry.isValid, Entry.max, hmax, hcontents, hlen]

end Index

/-! ## The front of the file -/

structure Tables where
  header : Header
  keys : Bytes
  indices : List Index

/-- `psf::load` up to its loop. -/
def readTables (stream : Bytes) : Except Failure Tables := do
  let bytes ← checkRead stream 0 20 .notPsf
  check (field bytes 0 4 = magic) .notPsf
  check (field bytes 4 4 = version) .notPsf
  let header : Header := ⟨field bytes 8 4, field bytes 12 4, field bytes 16 4⟩
  check (20 ≤ header.offKeyTable) .corrupt
  check (header.offKeyTable ≤ header.offDataTable) .corrupt
  check (header.offDataTable ≤ stream.length) .corrupt
  let indices ← checkRead stream 20 (16 * header.entriesNum) .corrupt
  let keys ←
    checkRead stream header.offKeyTable (header.offDataTable - header.offKeyTable) .corrupt
  pure ⟨header, keys, (List.range header.entriesNum).map (readIndex indices)⟩

theorem loadRegistry_eq (stream : Bytes) : loadRegistry stream = readTables stream >>= fun t =>
      t.indices.foldlM (loadEntry stream t.header t.keys) empty >>= fun sfo =>
      check (knownCategory sfo) .corrupt >>= fun _ => pure sfo := by
  simp only [loadRegistry, readTables, bind_assoc, pure_bind]

section

variable {α : Type} {cond : Bool} {errc : Error} {a : α} {f : Failure} {stream : Bytes}
  {pos size : Nat}

variable {k : Unit → Except Failure α}

theorem check_of_not {p : Prop} [Decidable p] (h : ¬ p) : (check (decide p) errc >>= k) = .error (.error errc) := by
  rw [check, decide_eq_false h, if_neg Bool.false_ne_true]
  rfl

theorem check_bind_eq_ok : (check cond errc >>= k) = .ok a ↔ cond ∧ k () = .ok a := by
  cases cond with
  | false => exact ⟨nofun, nofun⟩
  | true => exact ⟨fun h => ⟨rfl, h⟩, fun h => h.2⟩

theorem check_bind_eq_error : (check cond errc >>= k) = .error f ↔
      cond = false ∧ f = .error errc ∨ cond ∧ k () = .error f := by
  cases cond with
  | false =>
    refine ⟨fun h => .inl ⟨rfl, ?_⟩, ?_⟩
    · cases h
      rfl
    rintro (⟨-, rfl⟩ | ⟨h, -⟩)
    · rfl
    · cases h
  | true =>
    refine ⟨fun h => .inr ⟨rfl, h⟩, ?_⟩
    rintro (⟨h, -⟩ | ⟨-, h⟩)
    · cases h
    · exact h

theorem checkRead_bind_eq_ok {k : Bytes → Except Failure α} : (checkRead stream pos size errc >>= k) = .ok a ↔
      ∃ bytes, ContainerStream.read stream pos size = some bytes ∧ k bytes = .ok a := by
  rw [checkRead]
  cases ContainerStream.read stream pos size with
  | none => exact ⟨by rintro ⟨⟩, by rintro ⟨_, ⟨⟩, _⟩⟩
  | some bytes => exact ⟨fun h => ⟨bytes, rfl, h⟩, by rintro ⟨_, ⟨⟩, h⟩; exact h⟩

theorem checkRead_bind_eq_error {k : Bytes → Except Failure α} : (checkRead stream pos size errc >>= k) = .error f ↔
      ContainerStream.read stream pos size = none ∧ f = .error errc ∨
      ∃ bytes, ContainerStream.read stream pos size = some bytes ∧ k bytes = .error f := by
  rw [checkRead]
  cases ContainerStream.read stream pos size with
  | none =>
    refine ⟨fun h => .inl ⟨rfl, ?_⟩, ?_⟩
    · cases h
      rfl
    rintro (⟨-, rfl⟩ | ⟨_, h, -⟩)
    · rfl
    · cases h
  | some bytes =>
    refine ⟨fun h => .inr ⟨bytes, rfl, h⟩, ?_⟩
    rintro (⟨h, -⟩ | ⟨_, hbytes, h⟩)
    · cases h
    · cases hbytes
      exact h

end

/-- A field of the file is smaller than its width allows. -/
theorem field_lt (bytes : Bytes) (pos size : Nat) : field bytes pos size < 256 ^ size := by
  refine lt_of_lt_of_le (ofLeBytes_lt _) (Nat.pow_le_pow_right (by decide) ?_)
  rw [length_slice]
  exact min_le_left _ _

theorem readIndex_fits (indices : Bytes) (n : Nat) : (readIndex indices n).Fits :=
  ⟨field_lt _ _ _, field_lt _ _ _, field_lt _ _ _, field_lt _ _ _, field_lt _ _ _⟩

/-- What is known of the tables once the loop begins. -/
structure Tables.Wf (t : Tables) (stream : Bytes) : Prop where
  offKeyTable : t.header.offKeyTable ≤ t.header.offDataTable
  offDataTable : t.header.offDataTable ≤ stream.length
  header_lt : t.header.offDataTable < 0x100000000
  fits : ∀ i ∈ t.indices, i.Fits

theorem readTables_wf {stream : Bytes} {t : Tables} (h : readTables stream = .ok t) : t.Wf stream := by
  simp only [readTables, check_bind_eq_ok, checkRead_bind_eq_ok, decide_eq_true_eq] at h
  obtain ⟨bytes, -, -, -, -, hkey, hdata, indices, -, keys, -, h⟩ := h
  obtain rfl := Except.ok.inj h
  refine ⟨hkey, hdata, field_lt _ _ _, fun i hi => ?_⟩
  obtain ⟨n, -, rfl⟩ := List.mem_map.mp hi
  exact readIndex_fits _ _

theorem readTables_error {stream : Bytes} {f : Failure} (h : readTables stream = .error f) :
    f = .error .notPsf ∨ f = .error .corrupt := by
  simp only [readTables, check_bind_eq_error, checkRead_bind_eq_error] at h
  rcases h with ⟨-, h⟩ | ⟨_, -, ⟨-, h⟩ | ⟨-, ⟨-, h⟩ | ⟨-, ⟨-, h⟩ | ⟨-, ⟨-, h⟩ | ⟨-, ⟨-, h⟩ |
    ⟨-, ⟨-, h⟩ | ⟨_, -, ⟨-, h⟩ | ⟨_, -, h⟩⟩⟩⟩⟩⟩⟩⟩
  · exact .inl h
  · exact .inl h
  · exact .inl h
  · exact .inr h
  · exact .inr h
  · exact .inr h
  · exact .inr h
  · exact .inr h
  · cases h

/-! ## One turn of the loop -/

section

variable {stream : Bytes} {header : Header} {keys : Bytes} {sfo : Registry} {i : Index}

theorem read_position (h : i.InBounds stream header) : checkRead stream (i.position header) i.paramLen .corrupt =
      if i.Readable stream header then .ok (i.contents stream header)
      else .error (.error .corrupt) := by
  have hpos := h.position_lt
  have hlen : (slice stream (i.position header) i.paramLen).length = i.paramLen ↔ i.Readable stream header := by
    rw [length_slice, Index.Readable]
    omega
  rw [checkRead, ContainerStream.read]
  by_cases hread : i.Readable stream header
  · rw [if_pos (hlen.mpr hread), if_pos hread]
    rfl
  rw [if_neg (fun heq => hread (hlen.mp heq)), if_neg hread]

/-- An entry that fails a check ends the loop. -/
theorem loadEntry_refused (h : ¬ (i.InBounds stream header ∧ sfo.find? (i.key keys) = none)) :
    loadEntry stream header keys sfo i = .error (.error .corrupt) := by
  by_cases hkey : i.keyOff < header.offDataTable - header.offKeyTable
  case neg => rw [loadEntry, check_of_not hkey]
  by_cases hnew : sfo.find? (i.key keys) = none
  case neg =>
    have hsome : check (sfo.find? (i.key keys)).isNone .corrupt = .error (.error .corrupt) := by
      rw [check, if_neg]
      simpa using hnew
    rw [loadEntry, check_of hkey, ok_bind]
    dsimp only
    rw [← Index.key, hsome]
    rfl
  have hnone : (sfo.find? (i.key keys)).isNone := by rw [hnew, Option.isNone_none]
  rw [loadEntry, check_of hkey, ok_bind]
  dsimp only
  rw [← Index.key, hnone, check, if_pos rfl, ok_bind]
  by_cases hlen : i.paramLen ≤ i.paramMax
  case neg => rw [check_of_not hlen]
  by_cases hdata : i.dataOff < stream.length - header.offDataTable
  case neg => rw [check_of hlen, ok_bind, check_of_not hdata]
  by_cases hmax : i.paramMax < stream.length - i.dataOff
  case neg => rw [check_of hlen, ok_bind, check_of hdata, ok_bind, check_of_not hmax]
  exact absurd ⟨⟨hkey, hlen, hdata, hmax⟩, hnew⟩ h

/-- An entry that passes the checks. -/
theorem loadEntry_passed (h : i.InBounds stream header) (hnew : sfo.find? (i.key keys) = none) :
    loadEntry stream header keys sfo i = match i.format with
      | none => .ok sfo
      | some _ =>
        if i.Readable stream header then
          match i.entry stream header with
          | some e => .ok (sfo.insert (i.key keys) e)
          | none => .error .abort
        else .error (.error .corrupt) := by
  have hnone : (sfo.find? (i.key keys)).isNone := by rw [hnew, Option.isNone_none]
  have hemplace : ∀ e, (sfo.emplace (i.key keys) e).1 = sfo.insert (i.key keys) e := fun e => by
    rw [emplace, hnew]
    rfl
  have hread := read_position h
  rw [loadEntry, check_of h.keyOff, ok_bind]
  dsimp only
  rw [← Index.key, hnone, check, if_pos rfl, ok_bind, check_of h.paramLen, ok_bind,
    check_of h.dataOff, ok_bind, check_of h.paramMax, ok_bind, ← Index.position, Index.entry,
    Index.format]
  by_cases hint : i.paramFmt = Format.integer.code ∧ i.paramMax = 4 ∧ i.paramLen = 4
  · rw [hint.2.2] at hread
    rw [if_pos hint, if_pos hint, hread]
    split
    · exact congrArg Except.ok (hemplace _)
    · rfl
  by_cases hstr : i.paramFmt = Format.string.code
  · rw [if_neg hint, if_pos hstr, if_neg hint, if_pos hstr, hread]
    split
    · rw [ok_bind, loadText, if_pos rfl]
      cases Entry.ofString .string (UInt32.ofNat i.paramMax) (cString (i.contents stream header)) with
      | none => rfl
      | some e => exact congrArg Except.ok (hemplace e)
    rfl
  by_cases harr : i.paramFmt = Format.array.code
  · rw [if_neg hint, if_neg hstr, if_pos harr, if_neg hint, if_neg hstr, if_pos harr, hread]
    split
    · rw [ok_bind, loadText, if_neg (by decide)]
      cases Entry.ofString .array (UInt32.ofNat i.paramMax) (i.contents stream header) with
      | none => rfl
      | some e => exact congrArg Except.ok (hemplace e)
    rfl
  rw [if_neg hint, if_neg hstr, if_neg harr, if_neg hint, if_neg hstr, if_neg harr]
  rfl

end

/-! ## The loop -/

section

variable (stream : Bytes) (header : Header) (keys : Bytes)

def Fresh (done : List Index) (i : Index) : Prop :=
  ∀ x ∈ done, (x.entry stream header).isSome = true → x.key keys ≠ i.key keys

/-- The turn of `i` after those of `done` does not end in an error. -/
structure Passes (done : List Index) (i : Index) : Prop where
  inBounds : i.InBounds stream header
  fresh : Fresh stream header keys done i
  readable : i.format ≠ none → i.Readable stream header

def AllPass (done : List Index) : List Index → Prop
  | [] => True
  | i :: rest => Passes stream header keys done i ∧ ¬ i.Fatal ∧ AllPass (done ++ [i]) rest

/-- The first turn that does not get through is the one of an entry without room for its text. -/
def Doomed (done : List Index) : List Index → Prop
  | [] => False
  | i :: rest => Passes stream header keys done i ∧ (i.Fatal ∨ Doomed (done ++ [i]) rest)

def Loaded (done : List Index) (sfo : Registry) : Prop :=
  ∀ key e, sfo.find? key = some e ↔
    ∃ i ∈ done, i.key keys = key ∧ i.entry stream header = some e

def Ends (done rest : List Index) : Except Failure Registry → Prop
  | .ok sfo => AllPass stream header keys done rest ∧ ¬ Doomed stream header keys done rest ∧
      Loaded stream header keys (done ++ rest) sfo
  | .error (.error errc) => errc = .corrupt ∧ ¬ AllPass stream header keys done rest ∧
      ¬ Doomed stream header keys done rest
  | .error .abort => Doomed stream header keys done rest

variable {stream header keys} {done rest : List Index} {sfo : Registry} {i : Index}

section

variable (h : Loaded stream header keys done sfo)

include h

theorem Loaded.fresh_iff :
    sfo.find? (i.key keys) = none ↔ Fresh stream header keys done i := by
  refine ⟨fun hnone x hx hsome hkey => ?_, fun hfresh => ?_⟩
  · obtain ⟨e, he⟩ := Option.isSome_iff_exists.mp hsome
    have hfound := (h (i.key keys) e).mpr ⟨x, hx, hkey, he⟩
    rw [hnone] at hfound
    cases hfound
  refine Option.eq_none_iff_forall_ne_some.mpr fun e hfound => ?_
  obtain ⟨x, hx, hkey, he⟩ := (h _ e).mp hfound
  exact hfresh x hx (by rw [he, Option.isSome_some]) hkey

/-- An ignored entry leaves the registry as it is. -/
theorem Loaded.ignore (hnone : i.entry stream header = none) :
    Loaded stream header keys (done ++ [i]) sfo := by
  intro key e
  rw [h key e]
  constructor
  · rintro ⟨x, hx, hread⟩
    exact ⟨x, mem_append_left _ hx, hread⟩
  rintro ⟨x, hx, hkey, he⟩
  rcases mem_append.mp hx with hx | hx
  · exact ⟨x, hx, hkey, he⟩
  rw [mem_singleton.mp hx, hnone] at he
  cases he

theorem Loaded.insert (hfresh : Fresh stream header keys done i) {e : Entry} (he : i.entry stream header = some e) :
    Loaded stream header keys (done ++ [i]) (sfo.insert (i.key keys) e) := by
  intro key e'
  rw [find?_insert]
  split
  case isTrue heq =>
    refine ⟨fun hval => ⟨i, mem_append_right _ (mem_singleton.mpr rfl), heq.symm, ?_⟩, ?_⟩
    · rw [he, hval]
    rintro ⟨x, hx, hkey, hval⟩
    rcases mem_append.mp hx with hx | hx
    · exact absurd (hkey.trans heq) (hfresh x hx (by rw [hval, Option.isSome_some]))
    rw [mem_singleton.mp hx, he] at hval
    exact hval
  case isFalse hne =>
    rw [h key e']
    constructor
    · rintro ⟨x, hx, hread⟩
      exact ⟨x, mem_append_left _ hx, hread⟩
    rintro ⟨x, hx, hkey, hval⟩
    rcases mem_append.mp hx with hx | hx
    · exact ⟨x, hx, hkey, hval⟩
    rw [mem_singleton.mp hx] at hkey
    exact absurd hkey.symm hne

end

theorem Ends.next {r : Except Failure Registry} (hpass : Passes stream header keys done i)
    (hfatal : ¬ i.Fatal) (h : Ends stream header keys (done ++ [i]) rest r) :
    Ends stream header keys done (i :: rest) r := by
  match r, h with
  | .ok _, ⟨hall, hdoomed, hloaded⟩ =>
    refine ⟨⟨hpass, hfatal, hall⟩, fun hd => hd.2.elim hfatal hdoomed, ?_⟩
    rwa [append_assoc] at hloaded
  | .error (.error _), ⟨herrc, hall, hdoomed⟩ =>
    exact ⟨herrc, fun ha => hall ha.2.2, fun hd => hd.2.elim hfatal hdoomed⟩
  | .error .abort, hdoomed => exact ⟨hpass, .inr hdoomed⟩

theorem Ends.refused (h : ¬ Passes stream header keys done i) :
    Ends stream header keys done (i :: rest) (.error (.error .corrupt)) :=
  ⟨rfl, fun ha => h ha.1, fun hd => h hd.1⟩

/-- The loop ends as the table says. -/
theorem foldlM_loadEntry (hfits : ∀ i ∈ rest, i.Fits) (h : Loaded stream header keys done sfo) :
    Ends stream header keys done rest (rest.foldlM (loadEntry stream header keys) sfo) := by
  induction rest generalizing done sfo with
  | nil =>
    refine ⟨trivial, id, ?_⟩
    rwa [append_nil]
  | cons i rest ih =>
    have hrest : ∀ x ∈ rest, x.Fits := fun x hx => hfits x (mem_cons_of_mem _ hx)
    have hnone : i.entry stream header = none ↔ i.format = none ∨ i.Fatal :=
      Index.entry_eq_none_iff (hfits i mem_cons_self)
    rw [foldlM_cons]
    by_cases hchecks : i.InBounds stream header ∧ sfo.find? (i.key keys) = none
    case neg =>
      rw [loadEntry_refused hchecks]
      exact Ends.refused fun hpass => hchecks ⟨hpass.inBounds, h.fresh_iff.mpr hpass.fresh⟩
    obtain ⟨hbounds, hnew⟩ := hchecks
    have hfresh := h.fresh_iff.mp hnew
    rw [loadEntry_passed hbounds hnew]
    cases hformat : i.format with
    | none =>
      refine Ends.next ⟨hbounds, hfresh, fun hne => absurd hformat hne⟩ ?_
        (ih hrest (h.ignore (hnone.mpr (.inl hformat))))
      simp [Index.Fatal, hformat]
    | some type =>
      by_cases hread : i.Readable stream header
      case neg =>
        rw [if_neg hread]
        refine Ends.refused fun hpass => hread (hpass.readable ?_)
        rw [hformat]
        exact nofun
      have hpass : Passes stream header keys done i := ⟨hbounds, hfresh, fun _ => hread⟩
      rw [if_pos hread]
      cases he : i.entry stream header with
      | none =>
        refine ⟨hpass, .inl ((hnone.mp he).resolve_left ?_)⟩
        rw [hformat]
        exact nofun
      | some e =>
        refine Ends.next hpass (fun hfatal => ?_) (ih hrest (h.insert hfresh he))
        rw [hnone.mpr (.inr hfatal)] at he
        cases he

theorem Fresh.mono {more : List Index} (h : Fresh stream header keys (done ++ more) i) :
    Fresh stream header keys done i :=
  fun x hx => h x (mem_append_left _ hx)

theorem AllPass.passes (h : AllPass stream header keys done rest) (hi : i ∈ rest) :
    Passes stream header keys done i ∧ ¬ i.Fatal := by
  induction rest generalizing done with
  | nil => cases hi
  | cons x rest ih =>
    obtain ⟨hpass, hfatal, hrest⟩ := h
    rcases mem_cons.mp hi with rfl | hi
    · exact ⟨hpass, hfatal⟩
    obtain ⟨hpass', hfatal'⟩ := ih hrest hi
    exact ⟨⟨hpass'.inBounds, hpass'.fresh.mono, hpass'.readable⟩, hfatal'⟩

/-- Two entries that are not ignored have different keys. -/
theorem AllPass.eq_of_key {x : Index} (h : AllPass stream header keys done rest) (hi : i ∈ rest)
    (hx : x ∈ rest) (hisome : (i.entry stream header).isSome)
    (hxsome : (x.entry stream header).isSome) (hkey : i.key keys = x.key keys) : i = x := by
  induction rest generalizing done with
  | nil => cases hi
  | cons y rest ih =>
    have hlater : ∀ z ∈ rest, (y.entry stream header).isSome → y.key keys ≠ z.key keys :=
      fun z hz => (h.2.2.passes hz).1.fresh y (mem_append_right _ (mem_singleton.mpr rfl))
    rcases mem_cons.mp hi with rfl | hi'
    · rcases mem_cons.mp hx with rfl | hx'
      · rfl
      · exact absurd hkey (hlater x hx' hisome)
    rcases mem_cons.mp hx with rfl | hx'
    · exact absurd hkey.symm (hlater i hi' hxsome)
    · exact ih h.2.2 hi' hx'

end

/-! ## Any file -/

def HasCategory (stream : Bytes) (t : Tables) : Prop :=
  ∃ i ∈ t.indices, i.key t.keys = ascii "CATEGORY" ∧
    ∃ e, i.entry stream t.header = some e ∧ e.type ≠ .integer ∧ e.valueString ∈ validCats

/-- What a file must not have: an entry without room for its text that the loop comes to, and, if
all of it is read in the end, a text without a terminator or a value whose place overflows. -/
structure Clean (stream : Bytes) (t : Tables) : Prop where
  room : ¬ Doomed stream t.header t.keys [] t.indices
  accepted : AllPass stream t.header t.keys [] t.indices → HasCategory stream t →
    ∀ i ∈ t.indices, i.format ≠ none →
      t.header.offDataTable + i.dataOff < 0x100000000 ∧ ¬ i.Unterminated stream t.header

/-- The entry `e` is the one that the table has under the name `key`, and it was read from within
the keys and the values. -/
def FromTables (stream : Bytes) (t : Tables) (key : Bytes) (e : Entry) : Prop :=
  ∃ i ∈ t.indices, i.keyOff < t.header.offDataTable - t.header.offKeyTable ∧ i.key t.keys = key ∧
    t.header.offDataTable ≤ i.position t.header ∧
    i.position t.header + i.paramLen ≤ stream.length ∧ i.entry stream t.header = some e

/-- The file is dealt with: no assertion fails, nothing outside of it is looked for, and what is
accepted is valid and comes from its tables. -/
structure Sound (stream : Bytes) : Prop where
  returns : (load (some stream)).isSome = true
  inside : ∀ t, readTables stream = .ok t → t.header.offKeyTable ≤ stream.length ∧
    ∀ i ∈ t.indices, i.InBounds stream t.header → i.position t.header < stream.length
  accepted : ∀ sfo, load (some stream) = some ⟨sfo, .ok⟩ →
    ∃ t, readTables stream = .ok t ∧
      ∀ key e, sfo.find? key = some e → e.isValid = true ∧ FromTables stream t key e

variable {stream : Bytes} {t : Tables} {sfo : Registry}

theorem Loaded.knownCategory_iff (h : Loaded stream t.header t.keys t.indices sfo) :
    knownCategory sfo ↔ HasCategory stream t := by
  have hfind : knownCategory sfo ↔ ∃ e, sfo.find? (ascii "CATEGORY") = some e ∧
      e.type ≠ .integer ∧ e.valueString ∈ validCats := by
    rw [knownCategory, getString, decide_eq_true_eq]
    cases sfo.find? (ascii "CATEGORY") with
    | none => exact ⟨fun hmem => absurd hmem (by decide), nofun⟩
    | some e =>
      cases htype : e.type with
      | integer => simpa [htype] using (by decide : ([] : Bytes) ∉ validCats)
      | string => simp [htype]
      | array => simp [htype]
  rw [hfind, HasCategory]
  constructor
  · rintro ⟨e, he, hcat⟩
    obtain ⟨i, hi, hkey, hentry⟩ := (h _ e).mp he
    exact ⟨i, hi, hkey, e, hentry, hcat⟩
  rintro ⟨i, hi, hkey, e, hentry, hcat⟩
  exact ⟨e, (h _ e).mpr ⟨i, hi, hkey, hentry⟩, hcat⟩

theorem loaded_empty (stream : Bytes) (header : Header) (keys : Bytes) : Loaded stream header keys [] empty := by
  intro key e
  exact ⟨nofun, nofun⟩

/-- What `load` answers once the tables are read. -/
theorem load_of_tables (h : readTables stream = .ok t) :
    Doomed stream t.header t.keys [] t.indices ∧ load (some stream) = none ∨
    ¬ Doomed stream t.header t.keys [] t.indices ∧
      ¬ (AllPass stream t.header t.keys [] t.indices ∧ HasCategory stream t) ∧
      load (some stream) = some ⟨empty, .corrupt⟩ ∨ ∃ sfo, ¬ Doomed stream t.header t.keys [] t.indices ∧
      AllPass stream t.header t.keys [] t.indices ∧ HasCategory stream t ∧
      Loaded stream t.header t.keys t.indices sfo ∧ load (some stream) = some ⟨sfo, .ok⟩ := by
  have hends := foldlM_loadEntry (readTables_wf h).fits (loaded_empty stream t.header t.keys)
  rw [load, loadRegistry_eq, h, ok_bind]
  generalize t.indices.foldlM (loadEntry stream t.header t.keys) empty = r at hends
  rcases r with (errc | _) | sfo
  · obtain ⟨rfl, hall, hdoomed⟩ := hends
    exact .inr (.inl ⟨hdoomed, fun hacc => hall hacc.1, rfl⟩)
  · exact .inl ⟨hends, rfl⟩
  obtain ⟨hall, hdoomed, hloaded⟩ := hends
  rw [nil_append] at hloaded
  have hcat := hloaded.knownCategory_iff
  rw [ok_bind]
  by_cases hknown : knownCategory sfo
  · rw [hknown]
    exact .inr (.inr ⟨sfo, hdoomed, hall, hcat.mp hknown, hloaded, rfl⟩)
  rw [Bool.not_eq_true] at hknown
  rw [hknown]
  refine .inr (.inl ⟨hdoomed, fun hacc => ?_, rfl⟩)
  rw [← hcat, hknown] at hacc
  exact Bool.false_ne_true hacc.2

/-- A file whose tables cannot be read is rejected. -/
theorem load_of_error {f : Failure} (h : readTables stream = .error f) : load (some stream) = some ⟨empty, .notPsf⟩ ∨
      load (some stream) = some ⟨empty, .corrupt⟩ := by
  rw [load, loadRegistry_eq, h]
  rcases readTables_error h with rfl | rfl
  · exact .inl rfl
  · exact .inr rfl

theorem Tables.Wf.inside (h : t.Wf stream) : t.header.offKeyTable ≤ stream.length ∧
    ∀ i ∈ t.indices, i.InBounds stream t.header → i.position t.header < stream.length :=
  ⟨h.offKeyTable.trans h.offDataTable, fun _ _ hbounds => hbounds.position_lt⟩

/-- In a clean file the entries that were read are valid and come from the tables. -/
theorem Clean.entries (hclean : Clean stream t) (hwf : t.Wf stream)
    (hall : AllPass stream t.header t.keys [] t.indices) (hcat : HasCategory stream t)
    (hloaded : Loaded stream t.header t.keys t.indices sfo) (key : Bytes) (e : Entry)
    (he : sfo.find? key = some e) : e.isValid ∧ FromTables stream t key e := by
  obtain ⟨i, hi, hkey, hentry⟩ := (hloaded key e).mp he
  have hpass := (hall.passes hi).1
  have hformat : i.format ≠ none := by
    intro hnone
    rw [Index.entry, hnone] at hentry
    cases hentry
  have hread := hpass.readable hformat
  obtain ⟨hsum, hend⟩ := hclean.accepted hall hcat i hi hformat
  exact ⟨(hpass.inBounds.isValid_iff (hwf.fits i hi) hread hentry).mpr hend, i, hi,
    hpass.inBounds.keyOff, hkey, (Index.le_position_iff hwf.header_lt (hwf.fits i hi)).mpr hsum,
    hread, hentry⟩

/-- If the entries that were read are valid and come from the tables, the file was clean. -/
theorem clean_of_entries (hwf : t.Wf stream) (hdoomed : ¬ Doomed stream t.header t.keys [] t.indices)
    (hall : AllPass stream t.header t.keys [] t.indices) (hloaded : Loaded stream t.header t.keys t.indices sfo)
    (h : ∀ key e, sfo.find? key = some e → e.isValid ∧ FromTables stream t key e) : Clean stream t := by
  refine ⟨hdoomed, fun _ _ i hi hformat => ?_⟩
  obtain ⟨hpass, hfatal⟩ := hall.passes hi
  have hread := hpass.readable hformat
  have hsome : i.entry stream t.header ≠ none := by
    rw [Ne, Index.entry_eq_none_iff (hwf.fits i hi)]
    exact fun hor => hor.elim hformat hfatal
  obtain ⟨e, hentry⟩ := Option.ne_none_iff_exists'.mp hsome
  obtain ⟨hvalid, x, hx, -, hkey, hpos, -, hxentry⟩ := h (i.key t.keys) e ((hloaded _ e).mpr ⟨i, hi, rfl, hentry⟩)
  -- the entry of the table with this key is the one we began with
  obtain rfl : x = i := hall.eq_of_key hx hi (by rw [hxentry, Option.isSome_some])
    (by rw [hentry, Option.isSome_some]) hkey
  exact ⟨(Index.le_position_iff hwf.header_lt (hwf.fits x hx)).mp hpos,
    (hpass.inBounds.isValid_iff (hwf.fits x hx) hread hentry).mp hvalid⟩

/-- Exactly the clean files are dealt with. -/
theorem load_sound_iff (stream : Bytes) : Sound stream ↔ ∀ t, readTables stream = .ok t → Clean stream t := by
  constructor
  · rintro ⟨hreturns, -, haccepted⟩ t ht
    rcases load_of_tables ht with ⟨-, hnone⟩ | ⟨hdoomed, hrefused, -⟩ | ⟨sfo, hdoomed, hall, -, hloaded, hload⟩
    · rw [hnone] at hreturns
      cases hreturns
    · exact ⟨hdoomed, fun hall hcat => absurd ⟨hall, hcat⟩ hrefused⟩
    obtain ⟨t', ht', hentries⟩ := haccepted sfo hload
    obtain rfl := Except.ok.inj (ht.symm.trans ht')
    exact clean_of_entries (readTables_wf ht) hdoomed hall hloaded hentries
  intro hclean
  cases ht : readTables stream with
  | error f =>
    rcases load_of_error ht with hload | hload
    all_goals
      refine ⟨by rw [hload, Option.isSome_some], fun t ht' => ?_, fun sfo hok => ?_⟩
      · cases ht.symm.trans ht'
      rw [hload] at hok
      cases hok
  | ok t =>
    have hwf := readTables_wf ht
    rcases load_of_tables ht with ⟨hdoomed, -⟩ | ⟨-, -, hload⟩ | ⟨sfo, -, hall, hcat, hloaded, hload⟩
    · exact absurd hdoomed (hclean t ht).room
    · refine ⟨by rw [hload, Option.isSome_some], fun t ht => (readTables_wf ht).inside, fun sfo hok => ?_⟩
      rw [hload] at hok
      cases hok
    refine ⟨by rw [hload, Option.isSome_some], fun t ht => (readTables_wf ht).inside, fun sfo' hok => ⟨t, ht, ?_⟩⟩
    obtain rfl : sfo = sfo' := by
      rw [hload, Option.some.injEq, LoadResult.mk.injEq] at hok
      exact hok.1
    exact (hclean t ht).entries hwf hall hcat hloaded

/-- A file with one text that has room for one byte. -/
def roomlessFile : Bytes :=
  Header.bytes ⟨36, 40, 1⟩ ++ Index.bytes ⟨0, Format.string.code, 1, 1, 0⟩ ++
    (ascii "A" ++ [0, 0, 0]) ++ [0]

/-- A file with a category and a text that fills its room. -/
def unterminatedFile : Bytes :=
  Header.bytes ⟨52, 64, 2⟩ ++ Index.bytes ⟨0, Format.string.code, 4, 4, 0⟩ ++
    Index.bytes ⟨2, Format.string.code, 3, 4, 4⟩ ++
    (ascii "A" ++ [0] ++ ascii "CATEGORY" ++ [0, 0]) ++ ascii "ABCD" ++ ascii "GD" ++ [0, 0]

/-- The second file is accepted, with an entry that is not valid. -/
theorem load_unterminatedFile : ∃ sfo e, load (some unterminatedFile) = some ⟨sfo, .ok⟩ ∧
    sfo.find? (ascii "A") = some e ∧ e.isValid = false := by
  have hload : (load (some unterminatedFile)).any (fun r => r.errc = .ok ∧
      (r.sfo.find? (ascii "A")).any fun e => !e.isValid) := by decide +kernel
  rw [Option.any_eq_true] at hload
  obtain ⟨⟨sfo, errc⟩, hsome, hr⟩ := hload
  obtain ⟨rfl, hentry⟩ := of_decide_eq_true hr
  obtain ⟨e, he, hvalid⟩ := (Option.any_eq_true _ _).mp hentry
  exact ⟨sfo, e, hsome, he, by simpa using hvalid⟩

/-- The first file brings the reader down, the second one is accepted with an entry that is not
valid. -/
theorem load_not_sound : ¬ Sound roomlessFile ∧ ¬ Sound unterminatedFile := by
  constructor
  · intro h
    have hnone : load (some roomlessFile) = none := by decide +kernel
    have hreturns := h.returns
    rw [hnone] at hreturns
    cases hreturns
  intro h
  obtain ⟨sfo, e, hload, he, hvalid⟩ := load_unterminatedFile
  obtain ⟨t, -, hentries⟩ := h.accepted sfo hload
  rw [(hentries _ e he).1] at hvalid
  cases hvalid

end Rpcsx.Psf
