import Mathlib.Data.FinEnum
import Rpcsx.Lib.ByteString

/-!
# `vfs::escape` and `vfs::unescape`

Guest file names may hold bytes that a host file system does not take. `escape` replaces them by
full-width characters, three bytes each, of which the first is `0xEF`; a full-width character that
was there before is marked by `！`. `unescape` is written separately, as a switch over the third byte.
-/

namespace Rpcsx.Vfs

open Lib List

def getChar (name : Bytes) (pos : Nat) : UInt8 := name.getD pos 0

/-! ## `escape` -/

/-- The bytes that are replaced wherever they stand: the second and third byte of the full-width
character. -/
def wide (escapeSlash : Bool) (c : UInt8) : Option (UInt8 × UInt8) :=
  if c ≤ 9 then some (0xBC, 0x90 + c)
  else if c ≤ 31 then some (0xBC, 0xA1 + c - 10)
  else if c = 0x3C then some (0xBC, 0x9C) -- <
  else if c = 0x3E then some (0xBC, 0x9E) -- >
  else if c = 0x3A then some (0xBC, 0x9A) -- :
  else if c = 0x22 then some (0xBC, 0x82) -- "
  else if c = 0x5C then some (0xBC, 0xBC) -- \
  else if c = 0x7C then some (0xBD, 0x9C) -- |
  else if c = 0x3F then some (0xBC, 0x9F) -- ?
  else if c = 0x2A then some (0xBC, 0x8A) -- *
  else if c = 0x2F ∧ escapeSlash then some (0xBC, 0x8F) -- /
  else none

/-- The two bytes after a `0xEF` make it a full-width character, `0xFF01..0xFF5e`. -/
def isWide (c2 c3 : UInt8) : Bool :=
  (c2 = 0xBC && 0x81 ≤ c3 && c3 ≤ 0xbf) || (c2 = 0xBD && 0x80 ≤ c3 && c3 ≤ 0x9e)

/-- What one turn of `escape` appends for `c`, with `rest` behind it. -/
def escapeChar (escapeSlash : Bool) (c : UInt8) (rest : Bytes) : Bytes :=
  match wide escapeSlash c with
  | some (c2, c3) => [0xEF, c2, c3]
  | none =>
    -- a name that ends with a period or a space is not allowed on some hosts
    if c = 0x2E ∧ getChar rest 0 = 0 then [0xEF, 0xBC, 0x8E]
    else if c = 0x20 ∧ getChar rest 0 = 0 then [0xEF, 0xBC, 0xBF]
    else if c = 0xEF ∧ isWide (getChar rest 0) (getChar rest 1) then [0xEF, 0xBC, 0x81, c]
    else [c]

def escapeLoop (escapeSlash : Bool) : Bytes → Bytes
  | [] => []
  | c :: rest => escapeChar escapeSlash c rest ++ escapeLoop escapeSlash rest

def toupper (c : UInt8) : UInt8 := if 0x61 ≤ c ∧ c ≤ 0x7A then c - 0x20 else c

def triple (name : Bytes) : Bytes := (name.take 3).map toupper

/-- Names of devices: `COM1` and the like, `NUL` and the like, alone or before a period. -/
def isDevice (name : Bytes) : Bool :=
  if triple name = [0x43, 0x4F, 0x4D] ∨ triple name = [0x4C, 0x50, 0x54] then -- COM, LPT
    name.length ≥ 4 && 0x31 ≤ getChar name 3 && getChar name 3 ≤ 0x39 &&
      (name.length = 4 || getChar name 4 = 0x2E)
  else if triple name = [0x4E, 0x55, 0x4C] ∨ triple name = [0x43, 0x4F, 0x4E] ∨
      triple name = [0x41, 0x55, 0x58] ∨ triple name = [0x50, 0x52, 0x4E] then -- NUL, CON, AUX, PRN
    name.length = 3 || getChar name 3 = 0x2E
  else false

def escape (name : Bytes) (escapeSlash : Bool) : Bytes :=
  if name.length ≤ 2 ∧ ∀ c ∈ name, c = 0x2E then name
  else (if isDevice name then [0xEF, 0xBC, 0x81] else []) ++ escapeLoop escapeSlash name

/-! ## `unescape` -/

/-- The switch over the third byte, for the characters that stand for one byte and are skipped as a
whole. -/
def narrow (c3 : UInt8) : Bytes :=
  if c3 = 0xBF then [0x20]
  else if c3 = 0x8E then [0x2E]
  else if c3 = 0x9C then [0x3C]
  else if c3 = 0x9E then [0x3E]
  else if c3 = 0x9A then [0x3A]
  else if c3 = 0x82 then [0x22]
  else if c3 = 0xBC then [0x5C]
  else if c3 = 0x9F then [0x3F]
  else if c3 = 0x8A then [0x2A]
  else [] -- unrecognized, ignored

/-- One turn of `unescape` at `c`, with `rest` behind it: what is appended, and how many more bytes
are skipped, or `none` to return. The turns for `０` to `９` and `Ａ` to `Ｖ` leave by `continue` and
skip nothing. -/
def unescapeChar (first : Bool) (c : UInt8) (rest : Bytes) : Bytes × Option Nat :=
  let c3 := getChar rest 1
  if c = 0xEF then
    if getChar rest 0 = 0xBC then
      if 0x81 ≤ c3 ∧ c3 ≤ 0xbf then
        if 0x90 ≤ c3 ∧ c3 ≤ 0x99 then ([c3 - 0x90], some 0)
        else if 0xA1 ≤ c3 ∧ c3 ≤ 0xB6 then ([c3 - 0xA1 + 10], some 0)
        else if c3 = 0x81 then
          if getChar rest 2 = 0 then ([], none) else ([getChar rest 2], some 3)
        else if c3 = 0x84 ∧ first then ([0x2E], none)
        else (narrow c3, some 2)
      else ([c], some 0)
    else if getChar rest 0 = 0xBD then
      if 0x80 ≤ c3 ∧ c3 ≤ 0x9e then (if c3 = 0x9C then [0x7C] else [], some 2)
      else ([c], some 0)
    else ([c], some 0)
  else if c = 0 then ([], none)
  else ([c], some 0)

def unescapeLoop (first : Bool) : Nat → Bytes → Bytes
  | _, [] => []
  | skip + 1, _ :: rest => unescapeLoop false skip rest
  | 0, c :: rest =>
    match unescapeChar first c rest with
    | (out, some skip) => out ++ unescapeLoop false skip rest
    | (out, none) => out

def unescape (name : Bytes) : Bytes := unescapeLoop true 0 name

/-! ## What comes back -/

/-- What is true of every byte can be checked for all of them. -/
theorem forall_byte {P : UInt8 → Prop} (h : ∀ n < 256, P (.ofNat n)) (c : UInt8) : P c := by
  rw [← UInt8.ofNat_toNat (x := c)]
  exact h c.toNat c.toNat_lt

/-- What `unescape` makes of what `escape` makes of one byte. -/
def readBack (escapeSlash : Bool) (c : UInt8) : Bytes :=
  match wide escapeSlash c with
  | some (_, c3) => if c ≤ 31 then [c, 0xBC, c3] else if c = 0x2F then [] else [c]
  | none => [c]

section Bytes

variable {sl first : Bool} {c c2 c3 : UInt8} {rest : Bytes} {l : Bytes}

/-- The bytes of a replacement. Only control characters are replaced by a digit or a letter. -/
theorem wide_spec (h : wide sl c = some (c2, c3)) :
    isWide c2 c3 ∧ c3 ≠ 0x81 ∧ c3 ≠ 0 ∧ c3 ≠ 0xEF ∧ (c ≤ 31 → c2 = 0xBC) ∧ ∀ first, unescapeChar first 0xEF [c2, c3] =
        if c ≤ 31 then ([c], some 0) else (if c = 0x2F then [] else [c], some 2) := by
  -- The two values of `first` are listed, so that only the byte is enumerated.
  have hall : ∀ (s : Bool) (c : UInt8), (wide s c).all (fun x =>
      isWide x.1 x.2 ∧ x.2 ≠ 0x81 ∧ x.2 ≠ 0 ∧ x.2 ≠ 0xEF ∧ (c ≤ 31 → x.1 = 0xBC) ∧
        [false, true].map (unescapeChar · 0xEF [x.1, x.2]) = replicate 2
          (if c ≤ 31 then ([c], some 0) else (if c = 0x2F then [] else [c], some 2))) := by
    intro s
    refine forall_byte ?_
    cases s <;> decide +kernel
  have hc := hall sl c
  rw [h, Option.all_some, decide_eq_true_iff] at hc
  obtain ⟨hwide, h81, h0, hef, hbc, hboth⟩ := hc
  refine ⟨hwide, h81, h0, hef, hbc, ?_⟩
  rw [map_cons, map_cons, map_nil] at hboth
  obtain ⟨hfalse, hrest⟩ := cons.inj hboth
  intro first
  cases first with
  | false => exact hfalse
  | true => exact (cons.inj hrest).1

/-- The third byte decides, unless it is that of `！`. -/
theorem unescapeChar_wide (h : c3 ≠ 0x81) :
    unescapeChar first 0xEF (c2 :: c3 :: rest) = unescapeChar first 0xEF [c2, c3] := by simp [unescapeChar, getChar, h]

theorem unescapeChar_of_not_wide (hc : c ≠ 0) (h : c = 0xEF → isWide (getChar rest 0) (getChar rest 1) = false) :
    unescapeChar first c rest = ([c], some 0) := by
  by_cases hef : c = 0xEF
  · have := h hef
    simp only [isWide, Bool.or_eq_false_iff, Bool.and_eq_false_iff, decide_eq_false_iff_not] at this
    unfold unescapeChar
    grind
  simp [unescapeChar, hef, hc]

theorem unescapeLoop_literal (hc : c ≠ 0) (h : c = 0xEF → isWide (getChar rest 0) (getChar rest 1) = false) :
    unescapeLoop first 0 (c :: rest) = c :: unescapeLoop false 0 rest := by
  simp [unescapeLoop, unescapeChar_of_not_wide hc h]

/-- The marker `！` gives back the byte behind it. -/
theorem unescapeLoop_bang (hc : c ≠ 0) :
    unescapeLoop first 0 (0xEF :: 0xBC :: 0x81 :: c :: rest) = c :: unescapeLoop false 0 rest := by
  simp [unescapeLoop, unescapeChar, getChar, hc]

theorem unescapeLoop_wide (h : wide sl c = some (c2, c3)) : unescapeLoop first 0 (0xEF :: c2 :: c3 :: rest) =
      readBack sl c ++ unescapeLoop false 0 rest := by
  obtain ⟨-, h81, h0, hef, hbc, hchar⟩ := wide_spec h
  rw [unescapeLoop, unescapeChar_wide h81, hchar, readBack, h]
  by_cases hc : c ≤ 31
  · -- `continue` leaves the second and the third byte to be read again
    obtain rfl := hbc hc
    simp only [hc, if_true, cons_append, nil_append]
    rw [unescapeLoop_literal (by decide) (fun h => absurd h (by decide)),
      unescapeLoop_literal h0 (fun h => absurd h hef)]
  simp only [hc, if_false]
  rfl

/-- Each turn appends the byte itself, a full-width character that tells which byte it stands for,
or the marker `！` and the byte. -/
theorem escapeChar_cases (sl : Bool) (c : UInt8) (rest : Bytes) : (escapeChar sl c rest = [c] ∧
      (c = 0xEF → isWide (getChar rest 0) (getChar rest 1) = false) ∧ (c = 0x2E → getChar rest 0 ≠ 0)) ∨
    (∃ c2 c3, escapeChar sl c rest = [0xEF, c2, c3] ∧ isWide c2 c3 ∧ c3 ≠ 0x81 ∧
      (unescapeChar false 0xEF [c2, c3]).1.headD 0x2F = c) ∨
    (c = 0xEF ∧ escapeChar sl c rest = [0xEF, 0xBC, 0x81, 0xEF]) := by
  unfold escapeChar
  cases hw : wide sl c with
  | some x =>
    obtain ⟨hwide, h81, -, -, -, hchar⟩ := wide_spec hw
    refine Or.inr (Or.inl ⟨x.1, x.2, rfl, hwide, h81, ?_⟩)
    rw [hchar]
    by_cases hc : c ≤ 31
    · simp [hc]
    by_cases hslash : c = 0x2F
    · simp [hslash]
    · simp [hc, hslash]
  | none =>
    dsimp only
    split
    · next h => exact Or.inr (Or.inl ⟨0xBC, 0x8E, rfl, rfl, by decide, h.1.symm⟩)
    split
    · next h => exact Or.inr (Or.inl ⟨0xBC, 0xBF, rfl, rfl, by decide, h.1.symm⟩)
    split
    · next h => exact Or.inr (Or.inr ⟨h.1, by rw [h.1]⟩)
    · next hdot _ h =>
      exact Or.inl ⟨rfl, fun hef => by simpa [hef] using h, fun heq hnul => hdot ⟨heq, hnul⟩⟩

theorem getChar_escapeLoop (sl : Bool) (rest : Bytes) :
    getChar (escapeLoop sl rest) 0 = getChar rest 0 ∨ getChar (escapeLoop sl rest) 0 = 0xEF := by
  cases rest with
  | nil => exact Or.inl rfl
  | cons b rest =>
    rcases escapeChar_cases sl b rest with ⟨h, -⟩ | ⟨c2, c3, h, -⟩ | ⟨-, h⟩
    · exact Or.inl (by rw [escapeLoop, h]; rfl)
    · exact Or.inr (by rw [escapeLoop, h]; rfl)
    · exact Or.inr (by rw [escapeLoop, h]; rfl)

/-- No full-width character appears where there was none. -/
theorem isWide_escapeLoop (sl : Bool) (h : isWide (getChar rest 0) (getChar rest 1) = false) :
    isWide (getChar (escapeLoop sl rest) 0) (getChar (escapeLoop sl rest) 1) = false := by
  cases rest with
  | nil => exact h
  | cons b rest =>
    have hef : getChar (escapeLoop sl (b :: rest)) 0 = 0xEF → isWide (getChar (escapeLoop sl (b :: rest)) 0)
          (getChar (escapeLoop sl (b :: rest)) 1) = false := by
      intro hhead
      rw [hhead]
      simp [isWide]
    rcases escapeChar_cases sl b rest with ⟨hb, -⟩ | ⟨c2, c3, hb, -⟩ | ⟨-, hb⟩
    · have h0 : getChar (escapeLoop sl (b :: rest)) 0 = b := by rw [escapeLoop, hb]; rfl
      have h1 : getChar (escapeLoop sl (b :: rest)) 1 = getChar (escapeLoop sl rest) 0 := by rw [escapeLoop, hb]; rfl
      rw [h0, h1]
      rcases getChar_escapeLoop sl rest with hr | hr
      · rw [hr]; exact h
      rw [hr]
      simp [isWide]
    · exact hef (by rw [escapeLoop, hb]; rfl)
    exact hef (by rw [escapeLoop, hb]; rfl)

/-- One turn of `escape` and what `unescape` does with it. -/
theorem unescapeLoop_escapeChar (sl first : Bool) (c : UInt8) (rest : Bytes) :
    unescapeLoop first 0 (escapeLoop sl (c :: rest)) = readBack sl c ++ unescapeLoop false 0 (escapeLoop sl rest) := by
  rw [escapeLoop]
  cases hw : wide sl c with
  | some x =>
    rw [escapeChar, hw]
    exact unescapeLoop_wide hw
  | none =>
    have hback : readBack sl c = [c] := by rw [readBack, hw]
    have hc0 : c ≠ 0 := by
      rintro rfl
      cases hw
    rw [hback]
    unfold escapeChar
    rw [hw]
    dsimp only
    split
    · next h =>
      rw [h.1]
      cases first <;> rfl
    split
    · next h =>
      rw [h.1]
      cases first <;> rfl
    split
    · exact unescapeLoop_bang hc0
    · next h =>
      refine unescapeLoop_literal hc0 fun hef => isWide_escapeLoop sl ?_
      simpa [hef] using h

theorem unescapeLoop_escapeLoop (sl first : Bool) (name : Bytes) :
    unescapeLoop first 0 (escapeLoop sl name) = name.flatMap (readBack sl) := by
  induction name generalizing first with
  | nil => cases first <;> rfl
  | cons c rest ih => rw [unescapeLoop_escapeChar, ih, flatMap_cons]

/-- The name of a device begins with a letter. -/
theorem isDevice_head (sl : Bool) (h : isDevice (c :: rest)) :
    escapeChar sl c rest = [c] ∧ readBack sl c = [c] ∧ c ≠ 0 ∧ c ≠ 0xEF ∧ c ≠ 0x2E := by
  have hletter : toupper c ∈ ([0x43, 0x4C, 0x4E, 0x41, 0x50] : List UInt8) := by
    unfold isDevice at h
    have hhead : ∀ d l, triple (c :: rest) = d :: l → toupper c = d := by
      intro d l h
      simp only [triple, take_succ_cons, map_cons, cons.injEq] at h
      exact h.1
    split at h
    · next h' => rcases h' with h' | h' <;> rw [hhead _ _ h'] <;> decide
    split at h
    · next h' => rcases h' with h' | h' | h' | h' <;> rw [hhead _ _ h'] <;> decide
    · cases h
  have hall : ∀ c : UInt8, toupper c ∈ ([0x43, 0x4C, 0x4E, 0x41, 0x50] : List UInt8) →
      (∀ s, wide s c = none) ∧ c ≠ 0 ∧ c ≠ 0xEF ∧ c ≠ 0x2E ∧ c ≠ 0x20 := by
    refine forall_byte ?_
    decide +kernel
  obtain ⟨hw, h0, hef, hdot, hspace⟩ := hall c hletter
  exact ⟨by simp [escapeChar, hw, hdot, hspace, hef], by simp [readBack, hw], h0, hef, hdot⟩

/-- **What comes back**, byte by byte. -/
theorem unescape_escape (name : Bytes) (sl : Bool) : unescape (escape name sl) = name.flatMap (readBack sl) := by
  unfold escape
  split
  · next h =>
    -- `.` and `..` are left alone
    obtain ⟨hlen, hdots⟩ := h
    match name, hlen, hdots with
    | [], _, _ => rfl
    | [a], _, hdots =>
      obtain rfl : a = 0x2E := hdots a (by simp)
      cases sl <;> rfl
    | [a, b], _, hdots =>
      obtain rfl : a = 0x2E := hdots a (by simp)
      obtain rfl : b = 0x2E := hdots b (by simp)
      cases sl <;> rfl
  split
  · next h =>
    cases name with
    | nil => cases h
    | cons c rest =>
      obtain ⟨hchar, hback, hc0, -, -⟩ := isDevice_head sl h
      rw [escapeLoop, hchar, flatMap_cons, hback, ← unescapeLoop_escapeLoop sl false]
      exact unescapeLoop_bang hc0
  exact unescapeLoop_escapeLoop sl true name

/-! ## Names that come back -/

/-- A control character comes back with two bytes behind it, and no later loss makes up for them. -/
theorem not_shifted {f : UInt8 → Bytes} (h2 : f 0xBC = [0xBC]) (h3 : f c3 = [c3]) (l : Bytes) :
    l ≠ 0xBC :: c3 :: l.flatMap f := by
  induction hn : l.length using Nat.strong_induction_on generalizing l with
  | _ n ih =>
    rcases l with - | ⟨a, - | ⟨b, rest⟩⟩
    · simp
    · simp
    intro heq
    simp only [cons.injEq] at heq
    obtain ⟨rfl, rfl, hrest⟩ := heq
    rw [flatMap_cons, flatMap_cons, h2, h3] at hrest
    exact ih rest.length (by rw [← hn, length_cons, length_cons]; omega) rest rfl hrest

theorem readBack_eq_iff (sl : Bool) (c : UInt8) : readBack sl c = [c] ↔ 31 < c ∧ (sl → c ≠ 0x2F) := by
  have hall : ∀ (s : Bool) (c : UInt8), readBack s c = [c] ↔ 31 < c ∧ (s → c ≠ 0x2F) := by
    intro s
    refine forall_byte ?_
    cases s <;> decide +kernel
  exact hall sl c

/-- The bytes that do not come back: a control character is followed by what is left of its
full-width character, and a slash is gone. -/
theorem readBack_cases (sl : Bool) (c : UInt8) : readBack sl c = [c] ∨
    (∃ c3, readBack sl c = [c, 0xBC, c3] ∧ readBack sl c3 = [c3]) ∨
    (sl ∧ c = 0x2F ∧ readBack sl c = []) := by
  cases hw : wide sl c with
  | none => exact Or.inl (by rw [readBack, hw])
  | some x =>
    obtain ⟨hwide, -, -, -, -, -⟩ := wide_spec hw
    have hhigh : ∀ (c2 c3 : UInt8), isWide c2 c3 → 31 < c3 ∧ c3 ≠ 0x2F := by
      intro c2 c3 h
      have h80 : 0x80 ≤ c3 := by
        simp only [isWide, Bool.or_eq_true, Bool.and_eq_true, decide_eq_true_eq] at h
        grind
      have h31 : (31 : UInt8) < 0x80 := by decide
      exact ⟨UInt8.lt_of_lt_of_le h31 h80, by rintro rfl; exact absurd h80 (by decide)⟩
    by_cases hc : c ≤ 31
    · refine Or.inr (Or.inl ⟨x.2, by rw [readBack, hw]; simp [hc], ?_⟩)
      obtain ⟨h31, hslash⟩ := hhigh x.1 x.2 hwide
      exact (readBack_eq_iff sl x.2).mpr ⟨h31, fun _ => hslash⟩
    by_cases hslash : c = 0x2F
    · subst hslash
      cases sl with
      | true => exact Or.inr (Or.inr ⟨rfl, rfl, rfl⟩)
      | false => cases hw
    exact Or.inl (by rw [readBack, hw]; simp [hc, hslash])

theorem slash_not_mem_readBack : (0x2F : UInt8) ∉ readBack true c := by
  rcases readBack_cases true c with h | ⟨c3, h, h3⟩ | ⟨-, -, h⟩
  · have := (readBack_eq_iff true c).mp h
    rw [h, mem_singleton]
    exact fun heq => this.2 rfl heq.symm
  · have := (readBack_eq_iff true c3).mp h3
    rw [h]
    simp only [mem_cons, not_mem_nil, or_false, not_or]
    refine ⟨?_, by decide, fun heq => this.2 rfl heq.symm⟩
    rintro rfl
    cases h
  rw [h]
  exact not_mem_nil

/-- A name comes back exactly when each of its bytes does. -/
theorem flatMap_readBack_iff (sl : Bool) (name : Bytes) :
    name.flatMap (readBack sl) = name ↔ ∀ c ∈ name, readBack sl c = [c] := by
  induction name with
  | nil => simp
  | cons c rest ih =>
    rw [flatMap_cons, forall_mem_cons]
    rcases readBack_cases sl c with h | ⟨c3, h, h3⟩ | ⟨rfl, rfl, h⟩
    · rw [h, singleton_append, cons.injEq, ih, eq_self, eq_self]
    · rw [h]
      refine ⟨fun heq => ?_, fun hall => by simp at hall⟩
      simp only [cons_append, nil_append, cons.injEq, true_and] at heq
      exact absurd heq.symm (not_shifted ((readBack_eq_iff sl 0xBC).mpr ⟨by decide, fun _ => by decide⟩) h3 rest)
    rw [h]
    refine ⟨fun heq => ?_, fun hall => by simp at hall⟩
    -- the slash at the front cannot come from behind it
    have hmem : (0x2F : UInt8) ∈ rest.flatMap (readBack true) := by
      rw [nil_append] at heq
      rw [heq]
      exact mem_cons_self
    obtain ⟨d, -, hd⟩ := mem_flatMap.mp hmem
    exact absurd hd slash_not_mem_readBack

/-! ## No two names share one -/

/-- What a byte left alone begins is not a full-width character. -/
theorem escapeLoop_ne_wide (h : escapeChar sl c rest = [c])
    (hef : c = 0xEF → isWide (getChar rest 0) (getChar rest 1) = false)
    (hwide : isWide c2 c3) : escapeLoop sl (c :: rest) ≠ 0xEF :: c2 :: c3 :: l := by
  rw [escapeLoop, h]
  intro heq
  simp only [singleton_append, cons.injEq] at heq
  have hnot := isWide_escapeLoop sl (hef heq.1)
  rw [heq.2] at hnot
  exact absurd (hwide.symm.trans hnot) (by decide)

/-- What begins with the marker `！` is a `0xEF` that was marked. -/
theorem escapeLoop_eq_bang (h : escapeLoop sl (c :: rest) =
    0xEF :: 0xBC :: 0x81 :: l) : c = 0xEF ∧ l = 0xEF :: escapeLoop sl rest := by
  rcases escapeChar_cases sl c rest with ⟨hc, hef, -⟩ | ⟨c2, c3, hc, -, h81, -⟩ | ⟨rfl, hc⟩
  · exact absurd h (escapeLoop_ne_wide hc hef rfl)
  · rw [escapeLoop, hc] at h
    simp only [cons_append, nil_append, cons.injEq] at h
    exact absurd h.2.2.1 h81
  rw [escapeLoop, hc] at h
  simp only [cons_append, nil_append, cons.injEq, true_and] at h
  exact ⟨rfl, h.symm⟩

/-- What begins with another full-width character is a byte that was replaced by it. -/
theorem escapeLoop_eq_wide (hwide : isWide c2 c3) (h81 : c3 ≠ 0x81)
    (h : escapeLoop sl (c :: rest) = 0xEF :: c2 :: c3 :: l) :
    (unescapeChar false 0xEF [c2, c3]).1.headD 0x2F = c ∧ l = escapeLoop sl rest := by
  rcases escapeChar_cases sl c rest with ⟨hc, hef, -⟩ | ⟨d2, d3, hc, -, -, hd⟩ | ⟨rfl, hc⟩
  · exact absurd h (escapeLoop_ne_wide hc hef hwide)
  · rw [escapeLoop, hc] at h
    obtain ⟨rfl, rfl, rfl⟩ := h
    exact ⟨hd, rfl⟩
  rw [escapeLoop, hc] at h
  simp only [cons_append, cons.injEq, true_and] at h
  exact absurd h.2.1.symm h81

theorem escapeLoop_ne_nil : escapeLoop sl (c :: rest) ≠ [] := by
  rcases escapeChar_cases sl c rest with ⟨h, -⟩ | ⟨_, _, h, -⟩ | ⟨-, h⟩ <;> simp [escapeLoop, h]

theorem escapeLoop_injective (sl : Bool) : Function.Injective (escapeLoop sl) := by
  intro name name' heq
  induction name generalizing name' with
  | nil =>
    cases name' with
    | nil => rfl
    | cons c' rest' => exact absurd heq.symm escapeLoop_ne_nil
  | cons c rest ih =>
    cases name' with
    | nil => exact absurd heq escapeLoop_ne_nil
    | cons c' rest' =>
      rcases escapeChar_cases sl c rest with
        ⟨hc, hef, -⟩ | ⟨c2, c3, hc, hwide, h81, hd⟩ | ⟨rfl, hc⟩
      · rcases escapeChar_cases sl c' rest' with
          ⟨hc', -, -⟩ | ⟨c2, c3, hc', hwide, -, -⟩ | ⟨rfl, hc'⟩
        · rw [escapeLoop, escapeLoop, hc, hc'] at heq
          obtain ⟨rfl, hrest⟩ := cons.inj heq
          rw [ih hrest]
        · refine absurd heq ?_
          rw [escapeLoop.eq_2 _ c', hc']
          exact escapeLoop_ne_wide hc hef hwide
        refine absurd heq ?_
        rw [escapeLoop.eq_2 _ 0xEF, hc']
        exact escapeLoop_ne_wide hc hef rfl
      · rw [escapeLoop, hc] at heq
        obtain ⟨hd', hrest⟩ := escapeLoop_eq_wide hwide h81 heq.symm
        rw [ih hrest, ← hd, hd']
      rw [escapeLoop, hc] at heq
      obtain ⟨rfl, hrest⟩ := escapeLoop_eq_bang heq.symm
      rw [ih (cons.inj hrest).2]

/-- No name is escaped to one that ends with a period. -/
theorem getLast_escapeLoop (sl : Bool) (name : Bytes) : (escapeLoop sl name).getLast? ≠ some 0x2E := by
  induction name with
  | nil => simp [escapeLoop]
  | cons c rest ih =>
    cases rest with
    | nil =>
      rw [escapeLoop, escapeLoop, append_nil]
      rcases escapeChar_cases sl c [] with ⟨h, -, hdot⟩ | ⟨c2, c3, h, hwide, -⟩ | ⟨-, h⟩
      · rw [h]
        intro heq
        exact hdot (by simpa using heq) rfl
      · rw [h]
        intro heq
        obtain rfl : c3 = 0x2E := by simpa using heq
        simp [isWide] at hwide
      rw [h]
      simp
    | cons d rest =>
      rw [escapeLoop, getLast?_append_of_ne_nil _ escapeLoop_ne_nil]
      exact ih

/-- No two names are escaped to the same. -/
theorem escape_injective (sl : Bool) : Function.Injective (escape · sl) := by
  -- a name that is left alone is not what another is escaped to
  have hdots : ∀ {name name' : Bytes}, name.length ≤ 2 ∧ (∀ c ∈ name, c = 0x2E) →
      ¬ (name'.length ≤ 2 ∧ ∀ c ∈ name', c = 0x2E) → name ≠ escape name' sl := by
    intro name name' h h' heq
    rw [escape, if_neg h'] at heq
    cases name with
    | nil =>
      cases name' with
      | nil => exact h' (by simp)
      | cons c rest =>
        rw [eq_comm, append_eq_nil_iff] at heq
        exact escapeLoop_ne_nil heq.2
    | cons a l =>
      have hlast : (a :: l).getLast? = some 0x2E := by rw [getLast?_eq_some_getLast (by simp), h.2 _ (getLast_mem _)]
      cases name' with
      | nil => exact h' (by simp)
      | cons c rest =>
        rw [heq, getLast?_append_of_ne_nil _ escapeLoop_ne_nil] at hlast
        exact getLast_escapeLoop sl _ hlast
  -- the marker before the name of a device is not one that marks a `0xEF`
  have hdevice : ∀ {name name' : Bytes}, isDevice name → ¬ (name'.length ≤ 2 ∧ ∀ c ∈ name', c = 0x2E) →
      [0xEF, 0xBC, 0x81] ++ escapeLoop sl name ≠ escapeLoop sl name' := by
    intro name name' h h' heq
    cases name with
    | nil => cases h
    | cons c rest =>
      cases name' with
      | nil => exact h' (by simp)
      | cons c' rest' =>
        obtain ⟨hchar, -, -, hef, -⟩ := isDevice_head sl h
        obtain ⟨-, hl⟩ := escapeLoop_eq_bang heq.symm
        rw [escapeLoop, hchar] at hl
        exact hef (cons.inj hl).1
  intro name name' heq
  dsimp only at heq
  by_cases h : name.length ≤ 2 ∧ ∀ c ∈ name, c = 0x2E
  · by_cases h' : name'.length ≤ 2 ∧ ∀ c ∈ name', c = 0x2E
    · rwa [escape, if_pos h, escape, if_pos h'] at heq
    refine absurd ?_ (hdots h h')
    rw [← heq, escape, if_pos h]
  by_cases h' : name'.length ≤ 2 ∧ ∀ c ∈ name', c = 0x2E
  · refine absurd ?_ (hdots h' h)
    rw [heq, escape, if_pos h']
  rw [escape, if_neg h, escape, if_neg h'] at heq
  cases hd : isDevice name <;> cases hd' : isDevice name' <;> rw [hd, hd'] at heq
  · exact escapeLoop_injective sl heq
  · exact absurd heq.symm (hdevice hd' h)
  · exact absurd heq (hdevice hd h')
  · exact escapeLoop_injective sl (append_cancel_left heq)

end Bytes

/-- **Escaping and unescaping**: a name comes back exactly when it holds no control character and,
where slashes are escaped, no slash. The escaped names themselves are all different. -/
theorem escape_inverts_iff (name : Bytes) (escapeSlash : Bool) :
    (unescape (escape name escapeSlash) = name ↔ ∀ c ∈ name, 31 < c ∧ (escapeSlash = true → c ≠ 0x2F)) ∧
      Function.Injective (escape · escapeSlash) := by
  refine ⟨?_, escape_injective escapeSlash⟩
  rw [unescape_escape, flatMap_readBack_iff]
  exact forall₂_congr fun c _ => readBack_eq_iff escapeSlash c

/-- A tabulator comes back as three bytes, and a slash that was escaped not at all. -/
theorem control_and_slash_do_not_return : unescape (escape [0x09] false) = [0x09, 0xBC, 0x99] ∧
    unescape (escape [0x61, 0x2F, 0x62] true) = [0x61, 0x62] := by decide

end Rpcsx.Vfs
