/-
  Stgx.Lib.Decimal — reading a number in base 10 as `std::from_chars` does, and back.

  It matches the longest prefix that is an optional minus and digits, and fails with
  `invalidArgument` when there is none and `resultOutOfRange` when the number does not
  fit. `fromChars_whole`: what it reads whole is the numerals in range;
  `fromChars_toString`: what a number in range is written as is one of them.
-/

import Mathlib.Data.List.TakeWhile

namespace Stgx.Lib.Decimal

inductive Errc where
  | ok
  | invalidArgument
  | resultOutOfRange
  deriving DecidableEq, Repr

/-- The number read, and the text from the position reached on. -/
structure FromChars where
  ec : Errc
  value : Int
  rest : List Char
  deriving DecidableEq, Repr

/-- The sign, and what is after it. -/
def takeMinus : List Char → Bool × List Char
  | '-' :: text => (true, text)
  | text => (false, text)

def fromChars (lo hi : Int) (text : List Char) : FromChars :=
  let (negative, body) := takeMinus text
  let digits := body.takeWhile Char.isDigit
  if digits.isEmpty then ⟨.invalidArgument, 0, text⟩
  else
    let magnitude : Int := Nat.ofDigitChars 10 digits 0
    let value := if negative then -magnitude else magnitude
    let rest := body.dropWhile Char.isDigit
    if lo ≤ value ∧ value ≤ hi then ⟨.ok, value, rest⟩ else ⟨.resultOutOfRange, 0, rest⟩

theorem isDigit_toDigits {n : Nat} {c : Char} (h : c ∈ Nat.toDigits 10 n) : c.isDigit = true :=
  Nat.isDigit_of_mem_toDigits (by decide) (by decide) h

/-! ## What is matched whole -/

/-- One or more digits. -/
def Digits (text : List Char) : Prop := text ≠ [] ∧ ∀ c ∈ text, c.isDigit = true

/-- An optional minus and digits, and the integer they denote. -/
inductive Numeral : List Char → Int → Prop
  | digits {text : List Char} : Digits text → Numeral text (Nat.ofDigitChars 10 text 0)
  | minus {text : List Char} : Digits text → Numeral ('-' :: text) (-Nat.ofDigitChars 10 text 0)

theorem Digits.ne_cons {text rest : List Char} {c : Char} (h : Digits text) (hc : c.isDigit = false) :
    text ≠ c :: rest := by
  intro ht
  have := h.2 c (by rw [ht]; exact List.mem_cons_self)
  rw [hc] at this
  cases this

theorem takeMinus_digits {text : List Char} (h : Digits text) : takeMinus text = (false, text) := by
  unfold takeMinus
  split
  · exact absurd rfl (h.ne_cons rfl)
  · rfl

theorem fromChars_body {lo hi : Int} {negative : Bool} {text body : List Char}
    (ht : takeMinus text = (negative, body)) (hd : Digits body)
    (hlo : lo ≤ if negative then -(Nat.ofDigitChars 10 body 0 : Int) else Nat.ofDigitChars 10 body 0)
    (hhi : (if negative then -(Nat.ofDigitChars 10 body 0 : Int) else Nat.ofDigitChars 10 body 0) ≤ hi) :
    fromChars lo hi text =
      ⟨.ok, if negative then -(Nat.ofDigitChars 10 body 0 : Int) else Nat.ofDigitChars 10 body 0, []⟩ := by
  have htake : body.takeWhile Char.isDigit = body := List.takeWhile_eq_self_iff.mpr hd.2
  have hdrop : body.dropWhile Char.isDigit = [] := List.dropWhile_eq_nil_iff.mpr hd.2
  simp only [fromChars, ht, htake, hdrop, List.isEmpty_iff, hd.1, if_false, hlo, hhi, and_self, if_true]

/-- A numeral in range is read whole. -/
theorem fromChars_numeral {lo hi v : Int} {text : List Char} (h : Numeral text v) (hlo : lo ≤ v) (hhi : v ≤ hi) :
    fromChars lo hi text = ⟨.ok, v, []⟩ := by
  cases h with
  | digits hd => exact fromChars_body (takeMinus_digits hd) hd hlo hhi
  | minus hd => exact fromChars_body rfl hd hlo hhi

theorem takeMinus_split {text body : List Char} {negative : Bool} (h : takeMinus text = (negative, body)) :
    text = if negative then '-' :: body else body := by
  unfold takeMinus at h
  split at h
  · obtain ⟨rfl, rfl⟩ := Prod.mk.inj h
    rfl
  · obtain ⟨rfl, rfl⟩ := Prod.mk.inj h
    rfl

/-- Only a numeral in range is read whole. -/
theorem numeral_of_fromChars {lo hi v : Int} {text : List Char} (h : fromChars lo hi text = ⟨.ok, v, []⟩) :
    Numeral text v ∧ lo ≤ v ∧ v ≤ hi := by
  obtain ⟨negative, body, ht⟩ : ∃ negative body, takeMinus text = (negative, body) := ⟨_, _, rfl⟩
  simp only [fromChars, ht] at h
  generalize hn : (if negative = true then -(Nat.ofDigitChars 10 (body.takeWhile Char.isDigit) 0 : Int)
    else Nat.ofDigitChars 10 (body.takeWhile Char.isDigit) 0) = n at h
  split at h
  · cases h
  · rename_i hne
    split at h
    · rename_i hrange
      obtain ⟨-, rfl, hrest⟩ := FromChars.mk.inj h
      have hwhole := List.takeWhile_append_dropWhile (p := Char.isDigit) (l := body)
      rw [hrest, List.append_nil] at hwhole
      rw [hwhole] at hne hn
      have hd : Digits body := ⟨fun hnil => hne (List.isEmpty_iff.mpr hnil), List.takeWhile_eq_self_iff.mp hwhole⟩
      refine ⟨?_, hrange⟩
      rw [takeMinus_split ht, ← hn]
      cases negative with
      | false => exact .digits hd
      | true => exact .minus hd
    · cases h

/-- What is read whole is exactly the numerals in range. -/
theorem fromChars_whole {lo hi v : Int} {text : List Char} :
    fromChars lo hi text = ⟨.ok, v, []⟩ ↔ Numeral text v ∧ lo ≤ v ∧ v ≤ hi := by
  constructor
  · exact numeral_of_fromChars
  · intro h
    exact fromChars_numeral h.1 h.2.1 h.2.2

/-! ## What a number is written as -/

theorem digits_toDigits (n : Nat) : Digits (Nat.toDigits 10 n) := ⟨Nat.toDigits_ne_nil, fun _ => isDigit_toDigits⟩

theorem toString_nonneg {v : Int} (h : 0 ≤ v) : (toString v).toList = Nat.toDigits 10 v.toNat := by
  rw [Int.toString_eq_repr, Int.repr_eq_if, if_pos h, Nat.toList_repr]

theorem toString_neg {v : Int} (h : v < 0) : (toString v).toList = '-' :: Nat.toDigits 10 (-v).toNat := by
  rw [Int.toString_eq_repr, Int.repr_eq_if, if_neg (by omega), String.toList_append, Nat.toList_repr]
  rfl

theorem numeral_toString (v : Int) : Numeral (toString v).toList v := by
  by_cases h : 0 ≤ v
  · have hn := Numeral.digits (digits_toDigits v.toNat)
    rw [Nat.ofDigitChars_ten_toDigits, Int.toNat_of_nonneg h] at hn
    rw [toString_nonneg h]
    exact hn
  · have hn := Numeral.minus (digits_toDigits (-v).toNat)
    rw [Nat.ofDigitChars_ten_toDigits, Int.toNat_of_nonneg (by omega), Int.neg_neg] at hn
    rw [toString_neg (by omega)]
    exact hn

/-- A number in range is read back from what it is written as. -/
theorem fromChars_toString {lo hi v : Int} (hlo : lo ≤ v) (hhi : v ≤ hi) :
    fromChars lo hi (toString v).toList = ⟨.ok, v, []⟩ :=
  fromChars_numeral (numeral_toString v) hlo hhi

/-- A numeral starts with no plus. -/
theorem Numeral.ne_plus {text rest : List Char} {v : Int} (h : Numeral text v) : text ≠ '+' :: rest := by
  cases h with
  | digits hd => exact hd.ne_cons rfl
  | minus hd => simp

end Stgx.Lib.Decimal
