/-
  Stgx.Lib.Masks — the subsets of an initial segment, by the bits of a mask.

  The masks from 1 up to `2 ^ n` give each nonempty set of positions below `n` once
  (`mem_subsets`, `nodup_subsets`).
-/

import Mathlib.Data.List.Nodup
import Mathlib.Data.List.Range
import Mathlib.Data.Nat.Bitwise

namespace Stgx.Lib.Masks

/-- The bits of a mask below `n`, in order. -/
def bits (n mask : ℕ) : List ℕ := (List.range n).filter fun i => mask.testBit i

variable {n mask mask' i : ℕ} {l : List ℕ}

@[simp] theorem mem_bits : i ∈ bits n mask ↔ i < n ∧ mask.testBit i = true := by
  rw [bits, List.mem_filter, List.mem_range]

theorem bits_sublist (n mask : ℕ) : (bits n mask).Sublist (List.range n) := List.filter_sublist

/-- A mask that fits is its bits. -/
theorem bits_inj (h : mask < 2 ^ n) (h' : mask' < 2 ^ n) (he : bits n mask = bits n mask') : mask = mask' := by
  refine Nat.eq_of_testBit_eq fun i => ?_
  by_cases hi : i < n
  · have hmem : i ∈ bits n mask ↔ i ∈ bits n mask' := by rw [he]
    rw [mem_bits, mem_bits, and_iff_right hi, and_iff_right hi] at hmem
    exact Bool.eq_iff_iff.mpr hmem
  · have hle : 2 ^ n ≤ 2 ^ i := Nat.pow_le_pow_right (by decide) (by omega)
    rw [Nat.testBit_lt_two_pow (by omega), Nat.testBit_lt_two_pow (by omega)]

/-- Positions in order are the bits of a mask. -/
theorem exists_bits (h : l.Sublist (List.range n)) : ∃ mask, mask < 2 ^ n ∧ bits n mask = l := by
  refine ⟨Nat.ofBits fun i : Fin n => decide (i.val ∈ l), Nat.ofBits_lt_two_pow _, ?_⟩
  have hperm : (bits n (Nat.ofBits fun i : Fin n => decide (i.val ∈ l))).Perm l := by
    rw [List.perm_ext_iff_of_nodup (List.nodup_range.sublist (bits_sublist n _)) (List.nodup_range.sublist h)]
    intro i
    rw [mem_bits]
    constructor
    · rintro ⟨hi, hbit⟩
      rw [Nat.testBit_ofBits_lt _ i hi] at hbit
      exact of_decide_eq_true hbit
    · intro hi
      have hlt := List.mem_range.mp (h.subset hi)
      exact ⟨hlt, by rw [Nat.testBit_ofBits_lt _ i hlt]; exact decide_eq_true hi⟩
  have hlt : (List.range n).Pairwise (· < ·) := List.pairwise_lt_range
  exact hperm.eq_of_pairwise (fun a b _ _ hab hba => absurd hab (Nat.lt_asymm hba)) (hlt.sublist (bits_sublist n _))
    (hlt.sublist h)

theorem bits_zero (n : ℕ) : bits n 0 = [] := by
  rw [bits, List.filter_eq_nil_iff]
  intro i _
  rw [Nat.zero_testBit]
  exact Bool.false_ne_true

/-- The bits of the masks from 1. -/
def subsets (n : ℕ) : List (List ℕ) := (List.range' 1 (2 ^ n - 1)).map (bits n)

theorem mem_subsets : l ∈ subsets n ↔ l ≠ [] ∧ l.Sublist (List.range n) := by
  have hpos := Nat.two_pow_pos n
  rw [subsets, List.mem_map]
  constructor
  · rintro ⟨mask, hmask, rfl⟩
    rw [List.mem_range'_1] at hmask
    refine ⟨fun hnil => ?_, bits_sublist n mask⟩
    have := bits_inj (by omega) hpos (hnil.trans (bits_zero n).symm)
    omega
  · rintro ⟨hne, hsub⟩
    obtain ⟨mask, hlt, rfl⟩ := exists_bits hsub
    refine ⟨mask, ?_, rfl⟩
    have hmask : mask ≠ 0 := by
      rintro rfl
      exact hne (bits_zero n)
    rw [List.mem_range'_1]
    omega

theorem nodup_subsets (n : ℕ) : (subsets n).Nodup := by
  refine List.Nodup.map_on (fun mask hmask mask' hmask' he => ?_) List.nodup_range'
  rw [List.mem_range'_1] at hmask hmask'
  exact bits_inj (by omega) (by omega) he

end Stgx.Lib.Masks
