/-
  Stgx.Lib.Loop — an indexed loop over a list, and what it emits.

  `loop step i l s` is `for (i = …; …) step(s, i, l[i])`. Where one step keeps an
  invariant over the elements seen so far and appends to an output what those elements
  and the next determine, the whole loop keeps the invariant and appends `emit`
  (`loop_emit`): each element's contribution, read off the elements before it.
  `indexed` is what a loop collects when an element's position is all that matters.
-/

namespace Stgx.Lib.Loop

variable {α β σ : Type}

def loop (step : σ → Nat → α → σ) : Nat → List α → σ → σ
  | _, [], s => s
  | i, x :: xs, s => loop step (i + 1) xs (step s i x)

/-- What `f` emits over a list, each element seen with the elements before it. -/
def emit (f : List α → α → List β) : List α → List α → List β
  | _, [] => []
  | pre, x :: xs => f pre x ++ emit f (pre ++ [x]) xs

theorem mem_emit {f : List α → α → List β} {b : β} {l : List α} :
    ∀ {pre : List α}, b ∈ emit f pre l ↔ ∃ l₁ x l₂, l = l₁ ++ x :: l₂ ∧ b ∈ f (pre ++ l₁) x := by
  induction l with
  | nil => intro pre; simp [emit]
  | cons y l ih =>
    intro pre
    rw [emit, List.mem_append, ih]
    constructor
    · intro h
      rcases h with h | ⟨l₁, x, l₂, rfl, h⟩
      · exact ⟨[], y, l, rfl, by simpa using h⟩
      · exact ⟨y :: l₁, x, l₂, rfl, by simpa using h⟩
    · intro h
      obtain ⟨l₁, x, l₂, he, h⟩ := h
      cases l₁ with
      | nil =>
        obtain ⟨rfl, rfl⟩ := List.cons.inj he
        exact Or.inl (by simpa using h)
      | cons z l₁ =>
        obtain ⟨rfl, rfl⟩ := List.cons.inj he
        exact Or.inr ⟨l₁, x, l₂, rfl, by simpa using h⟩

theorem emit_eq_nil {f : List α → α → List β} {pre l : List α} :
    emit f pre l = [] ↔ ∀ l₁ x l₂, l = l₁ ++ x :: l₂ → f (pre ++ l₁) x = [] := by
  simp only [List.eq_nil_iff_forall_not_mem, mem_emit, not_exists, not_and]
  constructor
  · intro h l₁ x l₂ he b
    exact h b l₁ x l₂ he
  · intro h b l₁ x l₂ he
    exact h l₁ x l₂ he b

theorem emit_append {f : List α → α → List β} {pre l l' : List α} :
    emit f pre (l ++ l') = emit f pre l ++ emit f (pre ++ l) l' := by
  induction l generalizing pre with
  | nil => simp [emit]
  | cons x l ih => rw [List.cons_append, emit, emit, ih, List.append_assoc, List.append_assoc, List.singleton_append]

/-- What is emitted once at one place, and at no other, is emitted once. -/
theorem countP_emit_one {f : List α → α → List β} {p : β → Bool} {l l₁ l₂ : List α} {x : α} (hl : l = l₁ ++ x :: l₂)
    (hx : (f l₁ x).countP p = 1)
    (h : ∀ m₁ y m₂, l = m₁ ++ y :: m₂ → (∃ b ∈ f m₁ y, p b = true) → m₁ = l₁) : (emit f [] l).countP p = 1 := by
  subst hl
  have hbefore : (emit f [] l₁).countP p = 0 := by
    refine List.countP_eq_zero.mpr fun b hmem hp => ?_
    obtain ⟨m₁, y, m₂, rfl, hb⟩ := mem_emit.mp hmem
    have := congrArg List.length (h m₁ y (m₂ ++ x :: l₂) (by simp) ⟨b, hb, hp⟩)
    simp at this
  have hafter : (emit f (l₁ ++ [x]) l₂).countP p = 0 := by
    refine List.countP_eq_zero.mpr fun b hmem hp => ?_
    obtain ⟨m₁, y, m₂, rfl, hb⟩ := mem_emit.mp hmem
    have := congrArg List.length (h (l₁ ++ [x] ++ m₁) y m₂ (by simp) ⟨b, hb, hp⟩)
    simp at this
  rw [emit_append, List.countP_append, hbefore, List.nil_append, emit, List.countP_append, hx, hafter]

/-- A loop whose step keeps `Inv` and appends `f` to `out` keeps `Inv` and appends `emit f`. -/
theorem loop_emit (step : σ → Nat → α → σ) (out : σ → List β) (f : List α → α → List β) (Inv : List α → σ → Prop)
    (h : ∀ pre s x, Inv pre s →
      Inv (pre ++ [x]) (step s pre.length x) ∧ out (step s pre.length x) = out s ++ f pre x) :
    ∀ (l pre : List α) (s : σ), Inv pre s →
      Inv (pre ++ l) (loop step pre.length l s) ∧ out (loop step pre.length l s) = out s ++ emit f pre l := by
  intro l
  induction l with
  | nil => intro pre s hs; simpa [loop, emit] using hs
  | cons x l ih =>
    intro pre s hs
    obtain ⟨hInv, hout⟩ := h pre s x hs
    have := ih (pre ++ [x]) _ hInv
    rw [List.length_append, List.length_singleton, List.append_assoc, List.singleton_append, hout] at this
    exact ⟨this.1, by rw [loop, this.2, emit, List.append_assoc]⟩

/-! ## Positions -/

/-- What `f` gives over a list, each element with its position. -/
def indexed (f : Nat → α → List β) : Nat → List α → List β
  | _, [] => []
  | i, x :: xs => f i x ++ indexed f (i + 1) xs

theorem mem_indexed {f : Nat → α → List β} {b : β} {l : List α} {i : Nat} :
    b ∈ indexed f i l ↔ ∃ k, ∃ x, l[k]? = some x ∧ b ∈ f (i + k) x := by
  induction l generalizing i with
  | nil => simp [indexed]
  | cons y l ih =>
    rw [indexed, List.mem_append, ih]
    constructor
    · intro h
      rcases h with h | ⟨k, x, hx, h⟩
      · exact ⟨0, y, rfl, h⟩
      · exact ⟨k + 1, x, hx, by rwa [Nat.add_assoc, Nat.add_comm 1] at h⟩
    · intro h
      obtain ⟨k, x, hx, h⟩ := h
      cases k with
      | zero =>
        obtain rfl := Option.some.inj hx
        exact Or.inl h
      | succ k => exact Or.inr ⟨k, x, hx, by rwa [Nat.add_assoc, Nat.add_comm 1]⟩

theorem indexed_eq_nil {f : Nat → α → List β} {l : List α} {i : Nat} :
    indexed f i l = [] ↔ ∀ k x, l[k]? = some x → f (i + k) x = [] := by
  simp only [List.eq_nil_iff_forall_not_mem, mem_indexed, not_exists, not_and]
  constructor
  · intro h k x hx b
    exact h b k x hx
  · intro h b k x hx
    exact h k x hx b

theorem indexed_filterMap {γ : Type} (f : Nat → α → List β) (g : β → Option γ) (i : Nat) (l : List α) :
    (indexed f i l).filterMap g = indexed (fun i x => (f i x).filterMap g) i l := by
  induction l generalizing i with
  | nil => rfl
  | cons x l ih => rw [indexed, List.filterMap_append, ih, indexed]

theorem indexed_map {γ : Type} (f : Nat → α → List β) (g : β → γ) (i : Nat) (l : List α) :
    (indexed f i l).map g = indexed (fun i x => (f i x).map g) i l := by
  induction l generalizing i with
  | nil => rfl
  | cons x l ih => rw [indexed, List.map_append, ih, indexed]

theorem indexed_const (f : α → List β) (i : Nat) (l : List α) : indexed (fun _ x => f x) i l = l.flatMap f := by
  induction l generalizing i with
  | nil => rfl
  | cons x l ih => rw [indexed, ih, List.flatMap_cons]

/-- A loop that appends what each element gives. -/
theorem loop_append (f : α → List β) (i : Nat) (l : List α) (acc : List β) :
    loop (fun acc _ x => acc ++ f x) i l acc = acc ++ l.flatMap f := by
  induction l generalizing i acc with
  | nil => simp [loop]
  | cons x l ih => rw [loop, ih, List.flatMap_cons, List.append_assoc]

/-- Two lists grown side by side. -/
theorem loop_append_pair {γ : Type} (f : α → List β) (g : α → List γ) (i : Nat) (l : List α) (acc : List β × List γ) :
    loop (fun acc _ x => (acc.1 ++ f x, acc.2 ++ g x)) i l acc = (acc.1 ++ l.flatMap f, acc.2 ++ l.flatMap g) := by
  induction l generalizing i acc with
  | nil => simp [loop]
  | cons x l ih => simp only [loop, ih, List.flatMap_cons, List.append_assoc]

/-! ## Where an element of a concatenation comes from -/

theorem getElem?_split {l : List α} {i : Nat} {x : α} :
    l[i]? = some x ↔ ∃ l₁ l₂, l = l₁ ++ x :: l₂ ∧ l₁.length = i := by
  constructor
  · intro h
    obtain ⟨hi, rfl⟩ := List.getElem?_eq_some_iff.mp h
    exact ⟨l.take i, l.drop (i + 1), by simp, by simp; omega⟩
  · intro h
    obtain ⟨l₁, l₂, rfl, rfl⟩ := h
    simp

/-- The `k`-th match of a list, and the matches before it. -/
theorem getElem?_filter_split {p : α → Bool} {l : List α} {k : Nat} {x : α} :
    (l.filter p)[k]? = some x ↔ ∃ l₁ l₂, l = l₁ ++ x :: l₂ ∧ p x = true ∧ l₁.countP p = k := by
  rw [getElem?_split]
  constructor
  · intro h
    obtain ⟨m₁, m₂, hm, rfl⟩ := h
    obtain ⟨l₁, rest, rfl, rfl, hrest⟩ := List.filter_eq_append_iff.mp hm
    obtain ⟨skipped, l₂, rfl, hskipped, hx, -⟩ := List.filter_eq_cons_iff.mp hrest
    refine ⟨l₁ ++ skipped, l₂, by simp, hx, ?_⟩
    rw [List.countP_append, List.countP_eq_zero.mpr hskipped, List.countP_eq_length_filter, Nat.add_zero]
  · intro h
    obtain ⟨l₁, l₂, rfl, hx, rfl⟩ := h
    exact ⟨l₁.filter p, l₂.filter p, by simp [hx], List.countP_eq_length_filter.symm⟩

/-- The first match of a list that has one. -/
theorem first_split {p : α → Bool} {l : List α} {x : α} (hx : x ∈ l) (hp : p x = true) :
    ∃ l₁ y l₂, l = l₁ ++ y :: l₂ ∧ p y = true ∧ ∀ z ∈ l₁, p z = false := by
  obtain ⟨y, hy⟩ := Option.isSome_iff_exists.mp (List.find?_isSome.mpr ⟨x, hx, hp⟩)
  obtain ⟨hpy, l₁, l₂, rfl, hl₁⟩ := List.find?_eq_some_iff_append.mp hy
  exact ⟨l₁, y, l₂, rfl, hpy, by simpa using hl₁⟩

/-- Two matches with as many matches before them are in one place. -/
theorem split_unique {p : α → Bool} {l₁ l₂ m₁ m₂ : List α} {x y : α} (h : l₁ ++ x :: l₂ = m₁ ++ y :: m₂)
    (hx : p x = true) (hy : p y = true) (hcount : l₁.countP p = m₁.countP p) : l₁ = m₁ := by
  rcases List.append_eq_append_iff.mp h with ⟨rest, rfl, hrest⟩ | ⟨rest, rfl, hrest⟩
  · cases rest with
    | nil => exact (List.append_nil l₁).symm
    | cons z rest =>
      obtain ⟨rfl, -⟩ := List.cons.inj hrest
      rw [List.countP_append, List.countP_cons_of_pos hx] at hcount
      omega
  · cases rest with
    | nil => exact List.append_nil m₁
    | cons z rest =>
      obtain ⟨rfl, -⟩ := List.cons.inj hrest
      rw [List.countP_append, List.countP_cons_of_pos hy] at hcount
      omega

theorem append_split {l l' pre : List β} {b : β} :
    (∃ post, l ++ l' = pre ++ b :: post) ↔
      (∃ post, l = pre ++ b :: post) ∨ ∃ pre', pre = l ++ pre' ∧ ∃ post, l' = pre' ++ b :: post := by
  constructor
  · intro h
    obtain ⟨post, h⟩ := h
    rcases List.append_eq_append_iff.mp h with ⟨pre', rfl, hl'⟩ | ⟨rest, rfl, hl'⟩
    · exact .inr ⟨pre', rfl, post, hl'⟩
    · cases rest with
      | nil => exact .inr ⟨[], by simp, post, by simpa using hl'.symm⟩
      | cons c rest =>
        obtain ⟨rfl, -⟩ := List.cons.inj hl'
        exact .inl ⟨rest, rfl⟩
  · intro h
    rcases h with ⟨post, rfl⟩ | ⟨pre', rfl, post, rfl⟩
    · exact ⟨post ++ l', by simp⟩
    · exact ⟨post, by simp⟩

theorem flatMap_split {f : α → List β} {l : List α} {pre : List β} {b : β} :
    (∃ post, l.flatMap f = pre ++ b :: post) ↔
      ∃ l₁ x l₂ pre', l = l₁ ++ x :: l₂ ∧ pre = l₁.flatMap f ++ pre' ∧ ∃ post, f x = pre' ++ b :: post := by
  induction l generalizing pre with
  | nil => simp
  | cons y l ih =>
    rw [List.flatMap_cons, append_split]
    constructor
    · intro h
      rcases h with ⟨post, h⟩ | ⟨pre', rfl, h⟩
      · exact ⟨[], y, l, pre, rfl, rfl, post, h⟩
      · obtain ⟨l₁, x, l₂, pre'', rfl, rfl, hx⟩ := ih.mp h
        exact ⟨y :: l₁, x, l₂, pre'', rfl, by simp, hx⟩
    · intro h
      obtain ⟨l₁, x, l₂, pre', hl, rfl, h⟩ := h
      cases l₁ with
      | nil =>
        obtain ⟨rfl, rfl⟩ := List.cons.inj hl
        exact .inl h
      | cons z l₁ =>
        obtain ⟨rfl, rfl⟩ := List.cons.inj hl
        exact .inr ⟨l₁.flatMap f ++ pre', by simp, ih.mpr ⟨l₁, x, l₂, pre', rfl, rfl, h⟩⟩

theorem filterMap_split {f : α → Option β} {l : List α} {pre : List β} {b : β} :
    (∃ post, l.filterMap f = pre ++ b :: post) ↔
      ∃ l₁ x l₂, l = l₁ ++ x :: l₂ ∧ pre = l₁.filterMap f ∧ f x = some b := by
  constructor
  · intro h
    obtain ⟨post, h⟩ := h
    obtain ⟨l₁, rest, rfl, rfl, hrest⟩ := List.filterMap_eq_append_iff.mp h
    obtain ⟨skipped, x, l₂, rfl, hskipped, hx, -⟩ := List.filterMap_eq_cons_iff.mp hrest
    refine ⟨l₁ ++ skipped, x, l₂, by simp, ?_, hx⟩
    rw [List.filterMap_append, List.filterMap_eq_nil_iff.mpr hskipped, List.append_nil]
  · intro h
    obtain ⟨l₁, x, l₂, rfl, rfl, hx⟩ := h
    exact ⟨l₂.filterMap f, by simp [hx]⟩

end Stgx.Lib.Loop
