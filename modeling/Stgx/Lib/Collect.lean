/-
  Stgx.Lib.Collect — computations that collect findings and may throw.

  `Reads m ok v l` says all there is to say about such a computation whatever is
  collected before it: when `ok` it returns `v` and adds the findings `l`, otherwise it
  throws. The rules `Reads.pure`, `Reads.bind` and `Reads.loop` follow the program text,
  so the specification of a reader is read off its body.
-/

import Stgx.Lib.Loop

namespace Stgx.Lib.Collect

open Stgx.Lib.Loop (loop indexed)

variable {δ ε α β σ : Type}

/-- Collects `δ`s, may throw an `ε`. -/
abbrev Collecting (δ ε : Type) := StateT (List δ) (Except ε)

def add (d : δ) : Collecting δ ε Unit := modify fun l => l ++ [d]

/-- `for (i = …; …) s = step(s, i, l[i])`. -/
def loopM (step : σ → Nat → α → Collecting δ ε σ) : Nat → List α → σ → Collecting δ ε σ
  | _, [], s => pure s
  | i, x :: xs, s => do
    let s ← step s i x
    loopM step (i + 1) xs s

/-! ## Specifications -/

/-- When `ok`, `m` returns `v` and adds `l` to what is collected; otherwise it throws. -/
structure Reads (m : Collecting δ ε α) (ok : Prop) (v : α) (l : List δ) : Prop where
  returns : ok → ∀ s, m s = .ok (v, s ++ l)
  throws : ¬ ok → ∀ s, ∃ e, m s = .error e

namespace Reads

theorem pure (v : α) : Reads (Pure.pure v : Collecting δ ε α) True v [] where
  returns _ s := by
    rw [List.append_nil]
    rfl
  throws h := absurd trivial h

theorem add (d : δ) : Reads (Collect.add d : Collecting δ ε Unit) True () [d] where
  returns _ _ := rfl
  throws h := absurd trivial h

/-- Report and go on with a default. -/
theorem report (d : δ) (v : α) : Reads (do Collect.add d; return v : Collecting δ ε α) True v [d] where
  returns _ _ := rfl
  throws h := absurd trivial h

theorem bind {m : Collecting δ ε α} {f : α → Collecting δ ε β} {ok ok' : Prop} {v : α} {w : β} {l l' : List δ}
    (h : Reads m ok v l) (h' : Reads (f v) ok' w l') : Reads (m >>= f) (ok ∧ ok') w (l ++ l') where
  returns := by
    intro h s
    obtain ⟨hok, hok'⟩ := h
    show (m s).bind (fun r => f r.1 r.2) = _
    rw [h.returns hok s]
    show f v (s ++ l) = _
    rw [h'.returns hok', List.append_assoc]
  throws hn s := by
    show ∃ e, (m s).bind (fun r => f r.1 r.2) = .error e
    by_cases hok : ok
    · rw [h.returns hok s]
      exact h'.throws (fun hok' => hn ⟨hok, hok'⟩) (s ++ l)
    · obtain ⟨e, he⟩ := h.throws hok s
      exact ⟨e, by rw [he]; rfl⟩

/-- The same computation, described in other words. -/
theorem congr {m : Collecting δ ε α} {ok ok' : Prop} {v v' : α} {l l' : List δ} (h : Reads m ok v l) (hok : ok' ↔ ok)
    (hv : v' = v) (hl : l' = l) : Reads m ok' v' l' := by
  subst hv hl
  exact ⟨fun ho => h.returns (hok.mp ho), fun hn => h.throws fun ho => hn (hok.mpr ho)⟩

/-- A loop each of whose steps is specified. -/
theorem loop {step : σ → Nat → α → Collecting δ ε σ} {ok : Nat → α → Prop} {next : σ → Nat → α → σ}
    {out : Nat → α → List δ} {l : List α} (h : ∀ x ∈ l, ∀ s i, Reads (step s i x) (ok i x) (next s i x) (out i x))
    (i : Nat) (s : σ) :
    Reads (loopM step i l s) (∀ k x, l[k]? = some x → ok (i + k) x) (Loop.loop next i l s) (indexed out i l) := by
  induction l generalizing i s with
  | nil => exact (pure s).congr (by simp) rfl rfl
  | cons x l ih =>
    have hx := h x List.mem_cons_self s i
    have hl := ih (fun y hy => h y (List.mem_cons_of_mem _ hy)) (i + 1) (next s i x)
    refine (hx.bind hl).congr ⟨fun hall => ⟨hall 0 x rfl, fun k y hy => ?_⟩, ?_⟩ rfl rfl
    · rw [Nat.add_assoc, Nat.add_comm 1]
      exact hall (k + 1) y hy
    · intro h k y hy
      obtain ⟨hx, hl⟩ := h
      cases k with
      | zero =>
        obtain rfl := Option.some.inj hy
        exact hx
      | succ k =>
        rw [← Nat.add_assoc, Nat.add_right_comm]
        exact hl k y hy

end Reads

end Stgx.Lib.Collect
