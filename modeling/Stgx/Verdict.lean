/-
  Stgx.Verdict — what the check of a graph decides, wherever it is run.

  - `validateGraph_decides`: it reports nothing exactly for a well-formed graph, reports
    only errors, and does not look at the order of the edges; so `create`, which regroups
    the edges before it checks, accepts exactly what `finish` has checked.
-/

import Stgx.GraphProofs
import Stgx.Load

namespace Stgx

theorem WellFormed.perm {system : System} {nodes : List Node} {edges edges' : List Edge} (h : edges'.Perm edges) :
    WellFormed system nodes edges' ↔ WellFormed system nodes edges :=
  ⟨fun hw => hw.of_mem fun _ he => h.mem_iff.mpr he, fun hw => hw.of_mem fun _ he => h.mem_iff.mp he⟩

theorem create_accepts_iff (system : System) (nodes : List Node) (edges : List Edge) :
    (∃ g, Graph.create system nodes edges = .ok g) ↔ WellFormed system nodes edges := by
  simp only [create_ok_iff]
  exact ⟨fun h => h.choose_spec.1, fun hw => ⟨_, hw, rfl⟩⟩

/-- `finish` hands over a graph when no field and no check reported an error: `create` never
    turns down what `finish` has checked. -/
theorem finish_accepts_iff (system : System) (nodes : List Node) (edges : List Edge) (diags : Diagnostics)
    (warnings : Option Diagnostics) :
    (∃ g, (finish system nodes edges diags warnings).1 = .ok g) ↔
      diags.errors = [] ∧ validateGraph system nodes edges = [] := by
  unfold finish Diagnostics.merge
  rw [← List.append_eq_nil_iff]
  cases hd : diags.errors ++ validateGraph system nodes edges with
  | cons d rest => simp
  | nil =>
    have hw := (validateGraph_nil_iff system nodes edges).mp (List.append_eq_nil_iff.mp hd).2
    simpa using (create_accepts_iff system nodes edges).mpr hw

/-- The check is sound and complete, and every place that runs it comes to the same verdict. -/
theorem validateGraph_decides (system : System) (nodes : List Node) (edges : List Edge) :
    (validateGraph system nodes edges = [] ↔ WellFormed system nodes edges) ∧
      (∀ d ∈ validateGraph system nodes edges, d.isError = true) ∧
      (∀ edges' : List Edge, edges'.Perm edges →
        (validateGraph system nodes edges' = [] ↔ validateGraph system nodes edges = [])) ∧
      ((∃ g, Graph.create system nodes edges = .ok g) ↔ validateGraph system nodes edges = []) ∧
      ∀ (diags : Diagnostics) (warnings : Option Diagnostics),
        (∃ g, (finish system nodes edges diags warnings).1 = .ok g) ↔
          diags.errors = [] ∧ validateGraph system nodes edges = [] := by
  refine ⟨validateGraph_nil_iff system nodes edges, validateGraph_errors system nodes edges, fun edges' hperm => ?_, ?_,
    finish_accepts_iff system nodes edges⟩
  · rw [validateGraph_nil_iff, validateGraph_nil_iff]
    exact WellFormed.perm hperm
  · rw [validateGraph_nil_iff]
    exact create_accepts_iff system nodes edges

end Stgx
