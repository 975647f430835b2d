import Rpcsx.Ps3.CellL10n.Strings
import Rpcsx.Ps3.CellL10n.Utf8

/-!
# The Unicode conversions agree

The six converters of strings are conversions between the same three codes, so that any way from one
of them to another gives the same text.
-/

namespace Rpcsx.Ps3.CellL10n

open Lib UnitCode

section Converters

variable {σ τ : Type}

/-- There is no destination, or it has room for the number of units that is reported without one. -/
def Ample (conv : List σ → Nat → Option Nat → Conversion τ) (src : List σ) (srcLen : Nat) (dst : Option Nat) : Prop :=
  Room dst (conv src srcLen none).dstLen

/-- A converter turns a text, with its terminator and anything else behind it, into another one. -/
def Yields [Zero σ] (conv : List σ → Nat → Option Nat → Conversion τ) (text : List σ) (out : List τ) : Prop :=
  ∀ rest dst, Ample conv (text ++ 0 :: rest) text.length dst →
    conv (text ++ 0 :: rest) text.length dst =
      ⟨.conversionOK, text.length, out.length, writtenTo dst out⟩

/-- What is reported without a destination is what is written to one that is large enough. -/
def Counts (conv : List σ → Nat → Option Nat → Conversion τ) : Prop :=
  ∀ src srcLen cap, (conv src srcLen none).dstLen ≤ cap →
    (conv src srcLen (some cap)).written.length = (conv src srcLen none).dstLen ∧
      (conv src srcLen (some cap)).result = (conv src srcLen none).result

variable {step : List σ → Nat × List τ}

theorem counts_convert : Counts (convert step) := fun _ _ _ hcap =>
  ⟨(convert_some hcap).2.2, (convert_some hcap).1⟩

variable {α : Type} [Zero σ] [Zero τ] {code : UnitCode α σ} {code' : UnitCode α τ}

theorem yields_convert (h : Converts code code' step) (l : List α) :
    Yields (convert step) (code.text l) (code'.text l) := by
  intro rest dst hdst
  rw [Ample, convert_text h l _ (room_none _)] at hdst
  exact convert_text h l _ hdst

/-- The decoder of a code accepts its texts, and has an error for anything else. -/
theorem result_convert (h : Converts code code' step) (s rest : List σ) {dst : Option Nat}
    (hdst : Ample (convert step) (s ++ 0 :: rest) s.length dst) :
    ((convert step (s ++ 0 :: rest) s.length dst).result = .conversionOK ↔ ∃ l, s = code.text l) ∧
      ((convert step (s ++ 0 :: rest) s.length dst).result ≠ .conversionOK →
        (convert step (s ++ 0 :: rest) s.length dst).result = .srcIllegal) := by
  have hsame : (convert step (s ++ 0 :: rest) s.length dst).result =
      (convert step (s ++ 0 :: rest) s.length none).result := by
    cases dst with
    | none => rfl
    | some cap => exact (convert_some (hdst cap rfl)).1
  rw [hsame]
  rcases convert_result h s rest with ⟨hok, hl⟩ | ⟨hill, hnot⟩
  · exact ⟨iff_of_true hok hl, fun hne => absurd hok hne⟩
  rw [hill]
  exact ⟨iff_of_false (by decide) hnot, fun _ => rfl⟩

end Converters

/-- A list of bytes is well-formed UTF-8 if it is the encoding of characters. -/
def WellFormed (bytes : List UInt8) : Prop := ∃ l : List Char, bytes = l.flatMap String.utf8EncodeChar

/-- The conversions of strings are consistent. -/
theorem unicode_consistent : (∀ l : List Char, ∃ bytes words,
      Yields utf32stoUTF8s (l.map Char.val) bytes ∧ Yields utf8stoUTF32s bytes (l.map Char.val) ∧
      Yields utf16stoUTF8s words bytes ∧ Yields utf8stoUTF16s bytes words ∧
      Yields utf32stoUTF16s (l.map Char.val) words ∧ Yields utf16stoUTF32s words (l.map Char.val)) ∧
    (∀ bytes rest dst, Ample utf8stoUTF32s (bytes ++ 0 :: rest) bytes.length dst →
      ((utf8stoUTF32s (bytes ++ 0 :: rest) bytes.length dst).result = .conversionOK ↔ WellFormed bytes) ∧
        ((utf8stoUTF32s (bytes ++ 0 :: rest) bytes.length dst).result ≠ .conversionOK →
          (utf8stoUTF32s (bytes ++ 0 :: rest) bytes.length dst).result = .srcIllegal)) ∧
    (∀ bytes rest dst, Ample utf8stoUTF16s (bytes ++ 0 :: rest) bytes.length dst →
      ((utf8stoUTF16s (bytes ++ 0 :: rest) bytes.length dst).result = .conversionOK ↔ WellFormed bytes) ∧
        ((utf8stoUTF16s (bytes ++ 0 :: rest) bytes.length dst).result ≠ .conversionOK →
          (utf8stoUTF16s (bytes ++ 0 :: rest) bytes.length dst).result = .srcIllegal)) ∧
    Counts utf8stoUTF32s ∧ Counts utf8stoUTF16s ∧ Counts utf16stoUTF8s ∧ Counts utf16stoUTF32s ∧
      Counts utf32stoUTF8s ∧ Counts utf32stoUTF16s := by
  have hval (l : List Char) : l.map Char.val = utf32.text l := List.map_eq_flatMap
  refine ⟨fun l => ⟨utf8.text l, utf16.text l, ?_⟩, fun bytes rest dst hdst => ?_,
    fun bytes rest dst hdst => ?_, counts_convert, counts_convert, counts_convert, counts_convert,
    counts_convert, counts_convert⟩
  · rw [hval]
    exact ⟨yields_convert converts_utf32toUTF8 l, yields_convert converts_utf8toUTF32 l,
      yields_convert converts_utf16toUTF8 l, yields_convert converts_utf8toUTF16 l,
      yields_convert converts_utf32toUTF16 l, yields_convert converts_utf16toUTF32 l⟩
  · exact result_convert converts_utf8toUTF32 bytes rest hdst
  exact result_convert converts_utf8toUTF16 bytes rest hdst

/-- A letter, the euro sign and a character of two words are accepted, and a part of them is not. -/
theorem unicode_consistent_euro :
    (utf8stoUTF32s ([0x41, 0xe2, 0x82, 0xac, 0xf0, 0x9f, 0x98, 0x80] ++ 0 :: []) 8 none).result = .conversionOK ∧
    (utf8stoUTF16s ([0x41, 0xe2, 0x82, 0xac, 0xf0, 0x9f, 0x98, 0x80] ++ 0 :: []) 8 none).result = .conversionOK ∧
    (utf8stoUTF16s ([0x41, 0xe2, 0x82] ++ 0 :: []) 3 none).result = .srcIllegal :=
  have hwf : WellFormed [0x41, 0xe2, 0x82, 0xac, 0xf0, 0x9f, 0x98, 0x80] :=
    ⟨[Char.ofNat 0x41, Char.ofNat 0x20ac, Char.ofNat 0x1f600], by decide⟩
  ⟨(unicode_consistent.2.1 _ [] none (room_none _)).1.mpr hwf,
    (unicode_consistent.2.2.1 _ [] none (room_none _)).1.mpr hwf,
    (unicode_consistent.2.2.1 _ [] none (room_none _)).2 (by decide +kernel)⟩

end Rpcsx.Ps3.CellL10n
