import Rpcsx.Lib.UnitCode
import Rpcsx.Ps3.CellL10n.Basic

/-!
# The loop of the converters

A converter of strings that takes the characters one by one converts exactly the texts of its code,
and counts what it writes.
-/

namespace Rpcsx.Ps3.CellL10n

open Lib UnitCode List

section Loop

variable {α σ τ : Type} {step : List σ → Nat × List τ} {src : List σ} {units written : List τ}
  {srcLen srcPos len n : Nat} {dst : Option Nat}

/-- There is room for so many units, or no destination. -/
def Room (dst : Option Nat) (n : Nat) : Prop := ∀ dstLen ∈ dst, n ≤ dstLen

def writtenTo (dst : Option Nat) (units : List τ) : List τ := if dst.isSome then units else []

theorem Room.mono {n m : Nat} (h : Room dst n) (hm : m ≤ n) : Room dst m :=
  fun dstLen hdst => Nat.le_trans hm (h dstLen hdst)

theorem room_none (n : Nat) : Room none n := fun _ h => absurd h (Option.not_mem_none _)

theorem convertLoop_end (h : ¬srcPos < srcLen) :
    convertLoop step src srcLen dst srcPos len written = ⟨.conversionOK, srcLen, len, written⟩ := by
  rw [convertLoop, dif_neg h]

theorem convertLoop_illegal (h : srcPos < srcLen) (hstep : (step (src.drop srcPos)).1 = 0) :
    convertLoop step src srcLen dst srcPos len written = ⟨.srcIllegal, srcLen - srcPos, len, written⟩ := by
  rw [convertLoop, dif_pos h]
  split
  · rfl
  · next n units hs =>
    rw [hs] at hstep
    exact absurd hstep (Nat.succ_ne_zero n)

/-- One character, for which there is room. -/
theorem convertLoop_step (h : srcPos < srcLen) (hstep : step (src.drop srcPos) = (n, units))
    (hn : n ≠ 0) (hroom : Room dst (len + units.length)) : convertLoop step src srcLen dst srcPos len written =
      convertLoop step src srcLen dst (srcPos + n) (len + units.length) (written ++ writtenTo dst units) := by
  obtain ⟨k, rfl⟩ := Nat.exists_eq_succ_of_ne_zero hn
  rw [convertLoop, dif_pos h, hstep]
  cases dst with
  | none => rw [writtenTo, if_neg (by decide), append_nil]
  | some dstLen =>
    have hle : len + units.length ≤ dstLen := hroom dstLen rfl
    dsimp only
    rw [if_neg (by omega)]
    rfl

/-- Without a destination the units are only counted. -/
theorem convertLoop_count (h : srcPos < srcLen) (hstep : step (src.drop srcPos) = (n, units)) (hn : n ≠ 0) :
    convertLoop step src srcLen none srcPos len written =
      convertLoop step src srcLen none (srcPos + n) (len + units.length) written := by
  rw [convertLoop_step h hstep hn (room_none _), writtenTo, if_neg (by decide), append_nil]

theorem le_dstLen_convertLoop : len ≤ (convertLoop step src srcLen none srcPos len written).dstLen := by
  induction hk : srcLen - srcPos using Nat.strong_induction_on generalizing srcPos len with
  | h k ih =>
    by_cases h : srcPos < srcLen
    · by_cases hstep : (step (src.drop srcPos)).1 = 0
      · rw [convertLoop_illegal h hstep]
      obtain ⟨n, units, hs⟩ : ∃ n units, step (src.drop srcPos) = (n, units) := ⟨_, _, rfl⟩
      rw [hs] at hstep
      rw [convertLoop_count h hs hstep]
      exact Nat.le_trans (Nat.le_add_right _ _) (ih _ (by omega) rfl)
    rw [convertLoop_end h]

/-- With room for what is counted without a destination, so much is written. -/
theorem convertLoop_some {cap : Nat} (hwritten : written.length = len)
    (hcap : (convertLoop step src srcLen none srcPos len []).dstLen ≤ cap) :
    (convertLoop step src srcLen (some cap) srcPos len written).result =
        (convertLoop step src srcLen none srcPos len []).result ∧
      (convertLoop step src srcLen (some cap) srcPos len written).dstLen =
        (convertLoop step src srcLen none srcPos len []).dstLen ∧
      (convertLoop step src srcLen (some cap) srcPos len written).written.length =
        (convertLoop step src srcLen none srcPos len []).dstLen := by
  induction hk : srcLen - srcPos using Nat.strong_induction_on generalizing srcPos len written with
  | h k ih =>
    by_cases h : srcPos < srcLen
    · by_cases hstep : (step (src.drop srcPos)).1 = 0
      · rw [convertLoop_illegal h hstep, convertLoop_illegal h hstep]
        exact ⟨rfl, rfl, hwritten⟩
      obtain ⟨n, units, hs⟩ : ∃ n units, step (src.drop srcPos) = (n, units) := ⟨_, _, rfl⟩
      rw [hs] at hstep
      rw [convertLoop_count h hs hstep] at hcap ⊢
      have hle := Nat.le_trans le_dstLen_convertLoop hcap
      rw [convertLoop_step h hs hstep (fun _ hmem => Option.some.inj hmem ▸ hle)]
      exact ih _ (by omega) (by rw [length_append, hwritten]; rfl) hcap rfl
    rw [convertLoop_end h, convertLoop_end h]
    exact ⟨rfl, rfl, hwritten⟩

variable [Zero σ] [Zero τ] {code : UnitCode α σ} {code' : UnitCode α τ}

/-- A text is converted to the text of the same values in the other code. -/
theorem convertLoop_text (h : Converts code code' step) (l : List α) {rest : List σ}
    (hsrc : src.drop srcPos = code.text l ++ rest) (hlen : srcLen = srcPos + (code.text l).length)
    (hroom : Room dst (len + (code'.text l).length)) :
    convertLoop step src srcLen dst srcPos len written = ⟨.conversionOK, srcLen, len + (code'.text l).length,
        written ++ writtenTo dst (code'.text l)⟩ := by
  induction l generalizing srcPos len written with
  | nil =>
    rw [text_nil, length_nil] at hlen
    rw [convertLoop_end (by omega), text_nil, writtenTo, ite_self, append_nil]
    rfl
  | cons a l ih =>
    have hpos : 0 < (code.encode a).length := length_encode_pos a
    rw [text_cons, append_assoc] at hsrc
    rw [text_cons, length_append] at hlen hroom
    have hstep : step (src.drop srcPos) = ((code.encode a).length, code'.encode a) := by
      rw [hsrc]
      exact h.step_encode a _
    have hnext : src.drop (srcPos + (code.encode a).length) = code.text l ++ rest := by
      rw [← drop_drop, hsrc, drop_left]
    rw [convertLoop_step (by omega) hstep (by omega) (hroom.mono (by omega)),
      ih hnext (by omega) (hroom.mono (by omega)), text_cons, length_append, Nat.add_assoc,
      append_assoc]
    congr 2
    unfold writtenTo
    split <;> simp

/-- The texts of the code are what is converted; anything else is illegal. -/
theorem convertLoop_result (h : Converts code code' step) {s rest : List σ}
    (hsrc : src.drop srcPos = s ++ 0 :: rest) (hlen : srcLen = srcPos + s.length) :
    (convertLoop step src srcLen none srcPos len written).result = .conversionOK ∧ (∃ l, s = code.text l) ∨
      (convertLoop step src srcLen none srcPos len written).result = .srcIllegal ∧ ¬∃ l, s = code.text l := by
  induction hn : s.length using Nat.strong_induction_on generalizing s srcPos len written with
  | h k ih =>
    by_cases hs : s = []
    · subst hs
      rw [convertLoop_end (by rw [hlen]; simp)]
      exact .inl ⟨rfl, [], rfl⟩
    have hspos : 0 < s.length := length_pos_iff.mpr hs
    by_cases hstep : (step (src.drop srcPos)).1 = 0
    · rw [convertLoop_illegal (by omega) hstep]
      refine .inr ⟨rfl, ?_⟩
      rintro ⟨l, rfl⟩
      cases l with
      | nil => exact hs rfl
      | cons a l =>
        rw [hsrc, text_cons, append_assoc, h.step_encode] at hstep
        exact Nat.ne_of_gt (length_encode_pos a) hstep
    obtain ⟨a, rest', ha⟩ := h.encode_of_step _ (by rw [hsrc]; simp) hstep
    obtain ⟨s', rfl⟩ := eq_append_of_zero hs (hsrc.symm.trans ha)
    have hpos : 0 < (code.encode a).length := length_encode_pos a
    rw [length_append] at hlen hn
    rw [append_assoc] at hsrc
    have hstep' : step (src.drop srcPos) = ((code.encode a).length, code'.encode a) := by
      rw [hsrc]
      exact h.step_encode a _
    have hnext : src.drop (srcPos + (code.encode a).length) = s' ++ 0 :: rest := by rw [← drop_drop, hsrc, drop_left]
    rw [convertLoop_step (by omega) hstep' (by omega) (room_none _)]
    rcases ih s'.length (by omega) hnext (by omega) rfl with ⟨hok, l, rfl⟩ | ⟨hill, hnot⟩
    · exact .inl ⟨hok, a :: l, (text_cons a l).symm⟩
    refine .inr ⟨hill, ?_⟩
    rintro ⟨l, hl⟩
    cases l with
    | nil => exact hs hl
    | cons a' l =>
      -- the first character is the same in both readings
      rw [text_cons] at hl
      have hsame := h.step_encode a s'
      rw [hl, h.step_encode, Prod.mk.injEq] at hsame
      exact hnot ⟨l, (append_inj hl hsame.1.symm).2⟩

end Loop

/-! ## Converters of strings -/

section Convert

variable {α σ τ : Type} {step : List σ → Nat × List τ}

theorem convert_eq_convertLoop (src : List σ) (srcLen : Nat) (dst : Option Nat) :
    convert step src srcLen dst = convertLoop step src srcLen dst 0 0 [] := by
  unfold convert
  split
  · next h => rw [h, convertLoop_end (Nat.lt_irrefl 0)]
  · rfl

/-- The number of units that is reported without a destination is the number that is written to one
that is large enough. -/
theorem convert_some {src : List σ} {srcLen cap : Nat} (hcap : (convert step src srcLen none).dstLen ≤ cap) :
    (convert step src srcLen (some cap)).result = (convert step src srcLen none).result ∧
      (convert step src srcLen (some cap)).dstLen = (convert step src srcLen none).dstLen ∧
      (convert step src srcLen (some cap)).written.length = (convert step src srcLen none).dstLen := by
  rw [convert_eq_convertLoop] at hcap
  rw [convert_eq_convertLoop, convert_eq_convertLoop]
  exact convertLoop_some rfl hcap

variable [Zero σ] [Zero τ] {code : UnitCode α σ} {code' : UnitCode α τ}

theorem convert_text (h : Converts code code' step) (l : List α) (rest : List σ) {dst : Option Nat}
    (hroom : Room dst (code'.text l).length) : convert step (code.text l ++ rest) (code.text l).length dst =
      ⟨.conversionOK, (code.text l).length, (code'.text l).length, writtenTo dst (code'.text l)⟩ := by
  rw [convert_eq_convertLoop, convertLoop_text h l rfl (Nat.zero_add _).symm (by rwa [Nat.zero_add]), Nat.zero_add,
    nil_append]

theorem convert_result (h : Converts code code' step) (s rest : List σ) :
    (convert step (s ++ 0 :: rest) s.length none).result = .conversionOK ∧ (∃ l, s = code.text l) ∨
      (convert step (s ++ 0 :: rest) s.length none).result = .srcIllegal ∧ ¬∃ l, s = code.text l := by
  rw [convert_eq_convertLoop]
  exact convertLoop_result h rfl (Nat.zero_add _).symm

end Convert

end Rpcsx.Ps3.CellL10n
