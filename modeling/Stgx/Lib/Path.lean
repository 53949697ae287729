/-
  Stgx.Lib.Path — positions in a document, and how they are written: `a.b[2].c`.

  `render_injective`: with plain field names (not empty, no dot, no bracket) two
  positions written alike are one position. `Path.Under` orders positions by nesting;
  positions under two different children of one position are different
  (`Under.field_inj`, `Under.index_inj`).
-/

namespace Stgx.Lib.Doc

inductive Path where
  | root
  | field (base : Path) (name : String)
  | index (base : Path) (i : Nat)
  deriving DecidableEq, Repr

namespace Path

def render : Path → String
  | .root => ""
  | .field base name => (if base.render.isEmpty then base.render else base.render ++ ".") ++ name
  | .index base i => base.render ++ "[" ++ toString i ++ "]"

/-- A field name that cannot be mistaken for a longer position. -/
def plainName (name : String) : Bool := !name.isEmpty && name.toList.all fun c => c != '.' && c != '[' && c != ']'

def Plain : Path → Prop
  | .root => True
  | .field base name => base.Plain ∧ plainName name = true
  | .index base _ => base.Plain

/-! ## Injectivity of the rendering -/

/-- Two words that end alike after their last `c` are one word. -/
theorem split_last {α : Type} {c : α} {xs xs' ys ys' : List α} (h : xs ++ c :: ys = xs' ++ c :: ys') (hy : c ∉ ys)
    (hy' : c ∉ ys') : xs = xs' ∧ ys = ys' := by
  rcases List.append_eq_append_iff.mp h with ⟨as, rfl, has⟩ | ⟨as, rfl, has⟩
  · cases as with
    | nil => exact ⟨by simp, (List.cons.inj has).2⟩
    | cons a as =>
      obtain ⟨-, rfl⟩ := List.cons.inj has
      exact absurd (by simp) hy
  · cases as with
    | nil => exact ⟨by simp, (List.cons.inj has).2.symm⟩
    | cons a as =>
      obtain ⟨-, rfl⟩ := List.cons.inj has
      exact absurd (by simp) hy'

theorem plainName_iff {name : String} :
    plainName name = true ↔ name.toList ≠ [] ∧ '.' ∉ name.toList ∧ '[' ∉ name.toList ∧ ']' ∉ name.toList := by
  simp only [plainName, Bool.and_eq_true, Bool.not_eq_true', List.all_eq_true, bne_iff_ne, ne_eq]
  constructor
  · intro h
    obtain ⟨h, hall⟩ := h
    refine ⟨by simpa using h, fun hm => (hall _ hm).1.1 rfl, fun hm => (hall _ hm).1.2 rfl, fun hm => (hall _ hm).2 rfl⟩
  · intro h
    obtain ⟨h, h1, h2, h3⟩ := h
    refine ⟨by simpa using h, fun c hc => ⟨⟨?_, ?_⟩, ?_⟩⟩ <;> rintro rfl <;> contradiction

theorem toString_digit {i : Nat} {c : Char} (h : c ∈ (toString i).toList) : c.isDigit := by
  have : c ∈ Nat.toDigits 10 i := by
    rw [← Nat.toList_repr]
    exact h
  exact Nat.isDigit_of_mem_toDigits (by decide) (by decide) this

theorem toString_inj {i j : Nat} (h : (toString i).toList = (toString j).toList) : i = j := by
  have hd : Nat.toDigits 10 i = Nat.toDigits 10 j := by
    rw [← Nat.toList_repr, ← Nat.toList_repr]
    exact h
  rw [← Nat.ofDigitChars_ten_toDigits (n := i), hd, Nat.ofDigitChars_ten_toDigits]

theorem render_index (base : Path) (i : Nat) :
    (index base i).render.toList = base.render.toList ++ '[' :: ((toString i).toList ++ [']']) := by
  simp [render]

/-- A field's text ends with its name, after a dot unless it stands at the root. -/
theorem render_field (base : Path) (name : String) :
    (field base name).render.toList = name.toList ∧ base.render = "" ∨
      (field base name).render.toList = base.render.toList ++ '.' :: name.toList := by
  by_cases h : base.render = ""
  · exact Or.inl ⟨by simp [render, h], h⟩
  · exact Or.inr (by simp [render, h])

theorem render_eq_empty {p : Path} (hp : p.Plain) (h : p.render = "") : p = root := by
  have h : p.render.toList = [] := by rw [h]; rfl
  cases p with
  | root => rfl
  | field base name =>
    have hne := (plainName_iff.mp hp.2).1
    rcases render_field base name with ⟨hr, -⟩ | hr
    · exact absurd (hr.symm.trans h) hne
    · rw [hr] at h
      simp at h
  | index base i =>
    rw [render_index] at h
    simp at h

theorem render_field_ne_index {base base' : Path} {name : String} {i : Nat} (hn : plainName name = true) :
    (field base name).render ≠ (index base' i).render := by
  intro h
  obtain ⟨hne, -, -, hb⟩ := plainName_iff.mp hn
  have hlast : (field base name).render.toList.getLast? = name.toList.getLast? := by
    rcases render_field base name with ⟨hr, -⟩ | hr
    · rw [hr]
    · rw [hr, List.getLast?_append, List.getLast?_cons, List.getLast?_eq_some_getLast hne]
      rfl
  rw [h, render_index] at hlast
  have : name.toList.getLast? = some ']' := by
    rw [← hlast, ← List.cons_append, ← List.append_assoc, List.getLast?_concat]
  exact hb (List.mem_of_getLast? this)

theorem render_injective {p q : Path} (hp : p.Plain) (hq : q.Plain) (h : p.render = q.render) : p = q := by
  induction p generalizing q with
  | root => exact (render_eq_empty hq h.symm).symm
  | field base name ih =>
    obtain ⟨-, hdot, -, -⟩ := plainName_iff.mp hp.2
    cases q with
    | root => exact render_eq_empty hp h
    | index base' i => exact absurd h (render_field_ne_index hp.2)
    | field base' name' =>
      obtain ⟨-, hdot', -, -⟩ := plainName_iff.mp hq.2
      have h : (field base name).render.toList = (field base' name').render.toList := by rw [h]
      rcases render_field base name with ⟨hr, he⟩ | hr <;>
        rcases render_field base' name' with ⟨hr', he'⟩ | hr' <;> rw [hr, hr'] at h
      · rw [render_eq_empty hp.1 he, render_eq_empty hq.1 he', String.toList_inj.mp h]
      · exact absurd (by rw [h]; simp) hdot
      · exact absurd (by rw [← h]; simp) hdot'
      · obtain ⟨hb, hn⟩ := split_last h hdot hdot'
        rw [ih hp.1 hq.1 (String.toList_inj.mp hb), String.toList_inj.mp hn]
  | index base i ih =>
    cases q with
    | root => exact render_eq_empty hp h
    | field base' name => exact absurd h.symm (render_field_ne_index hq.2)
    | index base' j =>
      have h : (index base i).render.toList = (index base' j).render.toList := by rw [h]
      have hd : ∀ n : Nat, '[' ∉ (toString n).toList ++ [']'] := by
        intro n hm
        rcases List.mem_append.mp hm with hm | hm
        · exact absurd (toString_digit hm) (by decide)
        · simp at hm
      rw [render_index, render_index] at h
      obtain ⟨hb, hi⟩ := split_last h (hd i) (hd j)
      rw [ih hp (show base'.Plain from hq) (String.toList_inj.mp hb), toString_inj (List.append_cancel_right hi)]

/-! ## Nesting -/

/-- `q` is `p` or a position inside it. -/
inductive Under (p : Path) : Path → Prop
  | refl : Under p p
  | field {q : Path} (name : String) : Under p q → Under p (q.field name)
  | index {q : Path} (i : Nat) : Under p q → Under p (q.index i)

theorem Under.trans {p q r : Path} (h : Under p q) (h' : Under q r) : Under p r := by
  induction h' with
  | refl => exact h
  | field name _ ih => exact ih.field name
  | index i _ ih => exact ih.index i

def depth : Path → Nat
  | .root => 0
  | .field base _ => base.depth + 1
  | .index base _ => base.depth + 1

theorem Under.depth_le {p q : Path} (h : Under p q) : p.depth ≤ q.depth := by
  induction h with
  | refl => exact Nat.le_refl _
  | field name _ ih => exact Nat.le_succ_of_le ih
  | index i _ ih => exact Nat.le_succ_of_le ih

/-- A position lies in one position of each depth at most. -/
theorem Under.eq_of_depth {p q r : Path} (hp : Under p r) (hq : Under q r) (hd : p.depth = q.depth) : p = q := by
  induction hp with
  | refl =>
    cases hq with
    | refl => rfl
    | field name hq =>
      have := hq.depth_le
      simp only [depth] at hd
      omega
    | index i hq =>
      have := hq.depth_le
      simp only [depth] at hd
      omega
  | field name hp ih =>
    cases hq with
    | refl =>
      have := hp.depth_le
      simp only [depth] at hd
      omega
    | field _ hq => exact ih hq
  | index i hp ih =>
    cases hq with
    | refl =>
      have := hp.depth_le
      simp only [depth] at hd
      omega
    | index _ hq => exact ih hq

theorem Under.field_inj {p q : Path} {name name' : String} (h : Under (p.field name) q)
    (h' : Under (p.field name') q) : name = name' :=
  (Path.field.inj (h.eq_of_depth h' rfl)).2

theorem Under.index_inj {p q : Path} {i j : Nat} (h : Under (p.index i) q) (h' : Under (p.index j) q) : i = j :=
  (Path.index.inj (h.eq_of_depth h' rfl)).2

end Path

end Stgx.Lib.Doc
