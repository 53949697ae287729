/-
  Stgx.ReadInt — which texts `read_int` reads as an int.

  The wire format's ints are plain: at most one sign, then digits, in the range of a
  32-bit int (`PlainInt`, `InRange`). `parseInt_eq_some`: what is read is a numeral of
  `std::from_chars` behind an optional plus. `from_chars` takes a minus of its own, so
  the plus that `read_int` drops may stand before it: `+-5` is read as -5
  (`readInt_plus_minus`). `readInt_strict_iff`: those texts, as far as they fit, are the
  only ones on which the reader is not strict.
-/

import Stgx.LoadProofs

namespace Stgx

open Stgx.Lib.Decimal
open Stgx.Lib.Doc (Tree)

/-- At most one sign, then digits, and the integer they denote. -/
inductive PlainInt : List Char → Int → Prop
  | unsigned {digits : List Char} : Digits digits → PlainInt digits (Nat.ofDigitChars 10 digits 0)
  | plus {digits : List Char} : Digits digits → PlainInt ('+' :: digits) (Nat.ofDigitChars 10 digits 0)
  | minus {digits : List Char} : Digits digits → PlainInt ('-' :: digits) (-Nat.ofDigitChars 10 digits 0)

def InRange (n : Int) : Prop := -2147483648 ≤ n ∧ n ≤ 2147483647

/-- On `text`, `read_int` at `path` is a strict decimal int parser. -/
structure ReadsStrictly (text path : String) : Prop where
  reads : ∀ n, PlainInt text.toList n → InRange n →
    ∀ diags, ∃ v : Int32, v.toInt = n ∧ readInt (.valid (.scalar text)) path diags = .ok (some v, diags)
  rejects : (¬ ∃ n, PlainInt text.toList n ∧ InRange n) →
    ∀ diags, ∃ message,
      readInt (.valid (.scalar text)) path diags = .ok (none, diags ++ [⟨.notAnInt, .error, path, message⟩])

/-- A plus and a minus before the digits of an integer that fits. -/
def SignedTwice (text : List Char) : Prop :=
  ∃ digits, text = '+' :: '-' :: digits ∧ Digits digits ∧ Nat.ofDigitChars 10 digits 0 ≤ 2147483648

/-! ## What is read -/

theorem parseInt_eq_some {text : String} {v : Int32} :
    parseInt text = some v ↔ ∃ n, Numeral (dropPlus text.toList) n ∧ InRange n ∧ v = Int32.ofInt n := by
  unfold parseInt
  constructor
  · intro h
    generalize hr : fromChars (-2147483648) 2147483647 (dropPlus text.toList) = result at h
    obtain ⟨ec, n, rest⟩ := result
    simp only at h
    split at h
    · cases h
    · rename_i hwhole
      rw [not_or, not_not, not_not] at hwhole
      obtain ⟨rfl, rfl⟩ := hwhole
      have hnum := fromChars_whole.mp hr
      exact ⟨n, hnum.1, hnum.2, (Option.some.inj h).symm⟩
  · intro h
    obtain ⟨n, hn, hrange, rfl⟩ := h
    have hread := fromChars_whole.mpr ⟨hn, hrange⟩
    simp only [hread, ne_eq, not_true_eq_false, or_self, if_false]

theorem readInt_some {text : String} {v : Int32} (h : parseInt text = some v) (path : String) (diags : Diagnostics) :
    readInt (.valid (.scalar text)) path diags = .ok (some v, diags) := by
  unfold readInt
  simp only [isScalar_valid, scalar_valid, lift_ok, pure_bind, Tree.text?, Option.isSome_some, Bool.not_true,
    Bool.false_eq_true, if_false, Option.getD_some, h]
  rfl

theorem readInt_none {text : String} (h : parseInt text = none) (path : String) (diags : Diagnostics) :
    readInt (.valid (.scalar text)) path diags =
      .ok (none, diags ++ [⟨.notAnInt, .error, path, "expected an integer, got \"" ++ text ++ "\""⟩]) := by
  unfold readInt
  simp only [isScalar_valid, scalar_valid, lift_ok, pure_bind, Tree.text?, Option.isSome_some, Bool.not_true,
    Bool.false_eq_true, if_false, Option.getD_some, h]
  rfl

/-! ## Where it is strict -/

theorem dropPlus_of_ne {text : List Char} (h : ∀ rest, text ≠ '+' :: rest) : dropPlus text = text := by
  unfold dropPlus
  split
  · exact absurd rfl (h _)
  · rfl

/-- A plain int is a numeral once a plus is dropped. -/
theorem PlainInt.numeral {text : List Char} {n : Int} (h : PlainInt text n) : Numeral (dropPlus text) n := by
  cases h with
  | unsigned hd =>
    rw [dropPlus_of_ne fun _ => hd.ne_cons rfl]
    exact .digits hd
  | plus hd => exact .digits hd
  | minus hd => exact .minus hd

/-- A numeral behind a dropped plus is plain, unless it has a minus of its own. -/
theorem plain_of_numeral {text : List Char} {n : Int} (h : Numeral (dropPlus text) n) :
    PlainInt text n ∨ ∃ digits, text = '+' :: '-' :: digits ∧ Digits digits ∧ n = -Nat.ofDigitChars 10 digits 0 := by
  by_cases hplus : ∃ rest, text = '+' :: rest
  · obtain ⟨rest, rfl⟩ := hplus
    have hrest : Numeral rest n := h
    cases hrest with
    | digits hd => exact .inl (.plus hd)
    | minus hd => exact .inr ⟨_, rfl, hd, rfl⟩
  · rw [dropPlus_of_ne fun rest ht => hplus ⟨rest, ht⟩] at h
    cases h with
    | digits hd => exact .inl (.unsigned hd)
    | minus hd => exact .inl (.minus hd)

/-- Two signs are not plain. -/
theorem not_plain_of_signs {digits : List Char} {n : Int} : ¬ PlainInt ('+' :: '-' :: digits) n := by
  intro h
  cases h with
  | unsigned hd => exact hd.ne_cons rfl rfl
  | plus hd => exact hd.ne_cons rfl rfl

/-- A plain int in range is read as the integer it denotes. -/
theorem PlainInt.parsed {text : String} {n : Int} (h : PlainInt text.toList n) (hrange : InRange n) :
    parseInt text = some (Int32.ofInt n) :=
  parseInt_eq_some.mpr ⟨n, h.numeral, hrange, rfl⟩

/-- Two signs are read as well: the plus is dropped, the minus is the numeral's. -/
theorem SignedTwice.parsed {text : String} (h : SignedTwice text.toList) : ∃ v, parseInt text = some v := by
  obtain ⟨digits, ht, hd, hfits⟩ := h
  have hnum : Numeral (dropPlus text.toList) (-Nat.ofDigitChars 10 digits 0) := by
    rw [ht]
    exact .minus hd
  exact ⟨_, parseInt_eq_some.mpr ⟨_, hnum, ⟨by omega, by omega⟩, rfl⟩⟩

/-- Nothing else is read. -/
theorem plain_or_signedTwice {text : String} {v : Int32} (h : parseInt text = some v) :
    (∃ n, PlainInt text.toList n ∧ InRange n) ∨ SignedTwice text.toList := by
  obtain ⟨n, hn, hrange, -⟩ := parseInt_eq_some.mp h
  rcases plain_of_numeral hn with hplain | htwice
  · exact .inl ⟨n, hplain, hrange⟩
  · obtain ⟨digits, ht, hd, rfl⟩ := htwice
    have hlow := hrange.1
    exact .inr ⟨digits, ht, hd, by omega⟩

/-- `read_int` is a strict decimal int parser but for a minus behind the plus. -/
theorem readInt_strict_iff (text path : String) : ReadsStrictly text path ↔ ¬ SignedTwice text.toList := by
  constructor
  · intro hstrict htwice
    have hnot : ¬ ∃ n, PlainInt text.toList n ∧ InRange n := by
      intro h
      obtain ⟨n, hn, -⟩ := h
      obtain ⟨digits, ht, -, -⟩ := htwice
      rw [ht] at hn
      exact not_plain_of_signs hn
    obtain ⟨v, hv⟩ := htwice.parsed
    obtain ⟨message, hrej⟩ := hstrict.rejects hnot []
    rw [readInt_some hv] at hrej
    cases hrej
  · intro honce
    constructor
    · intro n hn hrange diags
      have hhigh : n < 2147483648 := by have := hrange.2; omega
      exact ⟨_, Int32.toInt_ofInt_of_le hrange.1 hhigh, readInt_some (hn.parsed hrange) path diags⟩
    · intro hnot diags
      cases hp : parseInt text with
      | none => exact ⟨_, readInt_none hp path diags⟩
      | some v =>
        rcases plain_or_signedTwice hp with hplain | htwice
        · exact absurd hplain hnot
        · exact absurd htwice honce

/-- `+-5` has two signs, and is read as -5. -/
theorem readInt_plus_minus : ¬ ReadsStrictly "+-5" "system.m" := by
  intro hstrict
  have hnot : ¬ ∃ n, PlainInt "+-5".toList n ∧ InRange n := by
    intro h
    obtain ⟨n, hn, -⟩ := h
    exact not_plain_of_signs hn
  obtain ⟨message, hrej⟩ := hstrict.rejects hnot []
  have hread : readInt (.valid (.scalar "+-5")) "system.m" [] = .ok (some (-5), []) := rfl
  rw [hread] at hrej
  cases hrej

end Stgx
