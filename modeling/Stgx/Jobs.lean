/-
  Stgx.Jobs — states of a task set and their dominance, as the two example programs have
  them (`examples/gfp/main.cpp`, `examples/dominants/main.cpp`).

  A job is the work left and the time to its deadline, both `int`; a state is the vector
  of the tasks' jobs. Vectors of pairs are ordered lexicographically.
-/

import Mathlib.Algebra.Order.Ring.Int
import Mathlib.Data.List.Forall2
import Mathlib.Data.List.Lex
import Mathlib.Data.Prod.Lex
import Stgx.Model

namespace Stgx

/-- `std::pair<int, int>`: remaining computation and deadline. -/
@[ext]
structure Job where
  c : Int32 := 0
  d : Int32 := 0
  deriving DecidableEq, Repr

/-- The pair as `operator<` compares it. -/
def Job.key (job : Job) : ℤ ×ₗ ℤ := toLex (job.c.toInt, job.d.toInt)

theorem Job.key_injective : Function.Injective Job.key := by
  intro a b h
  obtain ⟨hc, hd⟩ := Prod.mk.inj (toLex_inj.mp h)
  exact Job.ext (Int32.toInt_inj.mp hc) (Int32.toInt_inj.mp hd)

instance : LinearOrder Job := LinearOrder.lift' Job.key Job.key_injective

/-- The jobs of the tasks; states compare by their jobs. -/
abbrev State := List Job

namespace State

/-- `sum_c`, computed when the state is made. -/
def sumC (state : State) : ℤ := (state.map fun job => job.c.toInt).sum

/-- `sum_d`. -/
def sumD (state : State) : ℤ := (state.map fun job => job.d.toInt).sum

def deadlineMiss (state : State) : Bool := state.any fun job => decide (job.c > job.d)

/-- `state` is at least as bad as `other` in every component; they are equally long. -/
def dominates : State → State → Bool
  | [], _ => true
  | _ :: _, [] => false
  | job :: state, otherJob :: other =>
    if job.c < otherJob.c ∨ job.d > otherJob.d then false else dominates state other

end State

/-! ## Dominance -/

/-- At least as much work, in at most as much time. -/
def Job.AtLeast (job other : Job) : Prop := other.c.toInt ≤ job.c.toInt ∧ job.d.toInt ≤ other.d.toInt

theorem Job.AtLeast.antisymm {job other : Job} (h : job.AtLeast other) (h' : other.AtLeast job) : job = other :=
  Job.ext (Int32.toInt_inj.mp (le_antisymm h'.1 h.1)) (Int32.toInt_inj.mp (le_antisymm h.2 h'.2))

theorem dominates_iff {state other : State} (h : state.length = other.length) :
    state.dominates other = true ↔ List.Forall₂ Job.AtLeast state other := by
  induction state generalizing other with
  | nil =>
    cases other with
    | nil => exact iff_of_true rfl .nil
    | cons b other => cases h
  | cons a state ih =>
    cases other with
    | nil => cases h
    | cons b other =>
      rw [List.forall₂_cons, ← ih (Nat.succ.inj h), State.dominates]
      split
      · rename_i hlt
        refine iff_of_false Bool.false_ne_true fun hd => ?_
        rcases hlt with hlt | hlt
        · have := Int32.lt_iff_toInt_lt.mp hlt
          have := hd.1.1
          omega
        · have := Int32.lt_iff_toInt_lt.mp hlt
          have := hd.1.2
          omega
      · rename_i hge
        obtain ⟨hc, hd⟩ := not_or.mp hge
        rw [Int32.lt_iff_toInt_lt] at hc
        have hd : ¬ b.d.toInt < a.d.toInt := fun hlt => hd (Int32.lt_iff_toInt_lt.mpr hlt)
        exact (and_iff_right ⟨by omega, by omega⟩).symm

theorem atLeast_refl (state : State) : List.Forall₂ Job.AtLeast state state :=
  List.forall₂_same.mpr fun _ _ => ⟨le_refl _, le_refl _⟩

theorem atLeast_trans {state other least : State} (h : List.Forall₂ Job.AtLeast state other)
    (h' : List.Forall₂ Job.AtLeast other least) : List.Forall₂ Job.AtLeast state least := by
  induction h generalizing least with
  | nil => exact h'
  | cons hab _ ih =>
    cases h' with
    | cons hbc hrest => exact .cons ⟨le_trans hbc.1 hab.1, le_trans hab.2 hbc.2⟩ (ih hrest)

/-- The sums go the way of the components. -/
theorem sums_le {state other : State} (h : List.Forall₂ Job.AtLeast state other) :
    other.sumC ≤ state.sumC ∧ state.sumD ≤ other.sumD := by
  induction h with
  | nil => exact ⟨le_refl _, le_refl _⟩
  | cons hab _ ih =>
    obtain ⟨hc, hd⟩ := hab
    simp only [State.sumC, State.sumD, List.map_cons, List.sum_cons] at ih ⊢
    omega

/-- With the sums of a state it dominates, it is that state. -/
theorem eq_of_sums {state other : State} (h : List.Forall₂ Job.AtLeast state other) (hc : state.sumC ≤ other.sumC)
    (hd : other.sumD ≤ state.sumD) : state = other := by
  induction h with
  | nil => rfl
  | cons hab hrest ih =>
    obtain ⟨hab, had⟩ := hab
    have hsums := sums_le hrest
    simp only [State.sumC, State.sumD, List.map_cons, List.sum_cons] at ih hc hd hsums
    rw [ih (by omega) (by omega), Job.AtLeast.antisymm ⟨hab, had⟩ ⟨by omega, by omega⟩]

end Stgx
