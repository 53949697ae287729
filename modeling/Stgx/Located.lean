/-
  Stgx.Located — where the reports of `create` and `build` about dangling edges point.

  `create` regroups the edges before it checks them: those of unknown source come after
  all others (`indexed_edges_strays`). The edges that leave a node keep their order, so
  `nodes[i].children[k]` is the caller's `k`-th transition from that node. An unknown
  source is reported at `edges[e].source`, where `e` counts the caller's edges with those
  of unknown source moved to the end (`unknownLast`).
  - `rejects_located`: this, and every dangling edge and every unknown source is reported
    once.
  - `rejects_moved`: so `edges[e]` need not be the caller's `e`-th edge; and without a
    node no edge is reported at all.
-/

import Stgx.Dangling
import Stgx.Declared
import Stgx.Rebuild

namespace Stgx

open Stgx.Lib.Doc (Path)
open Stgx.Lib.Grouping
open Stgx.Lib.Index (position_get position_of_get position_lt)
open Stgx.Lib.Loop (countP_emit_one first_split getElem?_split getElem?_filter_split split_unique)

/-- `create` or `build` rejects these nodes and edges of the caller's. -/
inductive Rejects : List Node → List Edge → Diagnostics → Prop
  | create {system : System} {nodes : List Node} {edges : List Edge} {diags : Diagnostics} :
      Graph.create system nodes edges = .error diags → Rejects nodes edges diags
  | build {calls : List BuilderCall} {diags : Diagnostics} :
      builtBy calls = .error diags → Rejects (declaredNodes calls) (declaredEdges calls) diags

/-- The edges whose source is the id of no node. -/
def strays (nodes : List Node) (edges : List Edge) : List Edge := edges.filter fun edge => edge.source ∉ ids nodes

/-- The edges, those of unknown source moved to the end. -/
def unknownLast (nodes : List Node) (edges : List Edge) : List Edge :=
  edges.filter (fun edge => edge.source ∈ ids nodes) ++ strays nodes edges

/-- The edges of one kind that leave `id`: its `children`, or its `loopback`. -/
def leavingBy (edges : List Edge) (id : String) (kind : EdgeKind) : List Edge :=
  edges.filter fun edge => edge.source == id && edge.kind == kind

def leavesUnknown (source : String) : String := "edge leaves unknown node \"" ++ source ++ "\""

def namesUnknown (source target : String) : String :=
  "unknown node \"" ++ target ++ "\" referenced from \"" ++ source ++ "\""

/-- The report that this source is unknown. -/
def reportsSource (source : String) (d : Diagnostic) : Bool :=
  d.code == .danglingEdge && d.message == leavesUnknown source

/-- The report of a dangling edge at this place. -/
def reportsAt (p : Path) (d : Diagnostic) : Bool := d.code == .danglingEdge && d.path == p.render

/-- The reports of dangling edges point at the caller's edges, `edges[e]` being the `e`-th of
    `order`, and every dangling edge and unknown source is reported once. -/
structure Located (order : List Edge) (nodes : List Node) (edges : List Edge) (diags : Diagnostics) : Prop where
  somewhere : ∀ d ∈ diags, d.code = .danglingEdge →
    (∃ e, d.path = (sourcePath e).render) ∨ ∃ i kind k, d.path = (entryPath i kind k).render
  atSource : ∀ d ∈ diags, d.code = .danglingEdge → ∀ e, d.path = (sourcePath e).render →
    ∃ edge, order[e]? = some edge ∧ edge.source ∉ ids nodes ∧ d.message = leavesUnknown edge.source
  atEntry : ∀ d ∈ diags, d.code = .danglingEdge → ∀ i kind k, d.path = (entryPath i kind k).render →
    ∃ node edge, nodes[i]? = some node ∧ (leavingBy edges node.id kind)[k]? = some edge ∧
      edge.target ∉ ids nodes ∧ d.message = namesUnknown node.id edge.target
  everySource : ∀ edge ∈ edges, edge.source ∉ ids nodes → diags.countP (reportsSource edge.source) = 1
  everyTarget : ∀ pre edge post i, edges = pre ++ edge :: post → (ids nodes)[i]? = some edge.source →
    edge.target ∉ ids nodes → diags.countP (reportsAt (entryPath i edge.kind (ordinalOf pre edge))) = 1

/-! ## The order kept -/

theorem edgeBucket_unknown {nodes : List Node} {edge : Edge} :
    edgeBucket nodes edge = nodes.length ↔ edge.source ∉ ids nodes := by
  rw [edgeBucket, lookup_indexNodes]
  cases hi : (ids nodes).idxOf? edge.source with
  | none => simp [List.idxOf?_eq_none_iff.mp hi]
  | some i =>
    have hmem := List.mem_of_getElem? (position_get hi)
    have hlt := position_lt hi
    rw [ids, List.length_map] at hlt
    simp only [Option.getD_some, hmem, not_true_eq_false, iff_false]
    omega

/-- The edges kept: by source in node order, the unknown sources last. -/
theorem indexed_edges_strays {nodes : List Node} (hd : (ids nodes).Nodup) (system : System) (edges : List Edge) :
    (indexed system nodes edges).edges = group (ids nodes) Edge.source edges ++ strays nodes edges := by
  have hlast : group [nodes.length] (edgeBucket nodes) edges = strays nodes edges := by
    rw [group_cons_key, group_no_keys, List.append_nil]
    exact List.filter_congr fun edge _ => by simp only [edgeBucket_unknown]
  rw [indexed_eq]
  simp only [List.range_succ, group_append_keys, group_positions hd, hlast]

theorem leavingBy_eq (edges : List Edge) (id : String) (kind : EdgeKind) :
    leavingBy edges id kind = (leaving edges id).filter (·.kind == kind) := by
  rw [leaving, bucket, List.filter_filter]
  refine List.filter_congr fun edge _ => ?_
  simp only [Bool.beq_eq_decide_eq, Bool.and_comm]

/-- What leaves a node is kept in the caller's order. -/
theorem leavingBy_kept {nodes : List Node} (hd : (ids nodes).Nodup) (system : System) (edges : List Edge) {id : String}
    (hid : id ∈ ids nodes) (kind : EdgeKind) :
    leavingBy (indexed system nodes edges).edges id kind = leavingBy edges id kind := by
  have hstrays : bucket Edge.source (strays nodes edges) id = [] := by
    refine bucket_eq_nil fun edge he heq => ?_
    subst heq
    exact of_decide_eq_true (List.mem_filter.mp he).2 hid
  rw [leavingBy_eq, leavingBy_eq, leaving, indexed_edges_strays hd, bucket_append, bucket_group hd _ _ hid, hstrays,
    List.append_nil, leaving]

/-! ## The reports -/

def sourceDiag (pre : List Edge) (edge : Edge) : Diagnostic :=
  ⟨.danglingEdge, .error, (sourcePath pre.length).render, leavesUnknown edge.source⟩

def targetDiag (i : Nat) (pre : List Edge) (edge : Edge) : Diagnostic :=
  ⟨.danglingEdge, .error, (entryPath i edge.kind (ordinalOf pre edge)).render, namesUnknown edge.source edge.target⟩

section Reports

variable {nodes : List Node} (hne : ∀ id ∈ ids nodes, id ≠ "")
include hne

theorem firstOf_none {id : String} : firstOf nodes id = none ↔ id ∉ ids nodes := by
  rw [← Option.not_isSome_iff_eq_none, firstOf_isSome]
  exact ⟨fun h hid => h ⟨hne id hid, hid⟩, fun h hid => h hid.2⟩

theorem firstOf_some (hd : (ids nodes).Nodup) {id : String} {i : Nat} :
    firstOf nodes id = some i ↔ (ids nodes)[i]? = some id := by
  have hfirst : id ∈ ids nodes → firstOf nodes id = (ids nodes).idxOf? id := fun hid => if_neg (hne id hid)
  constructor
  · intro h
    by_cases hid : id ∈ ids nodes
    · exact position_get (hfirst hid ▸ h)
    · rw [(firstOf_none hne).mpr hid] at h
      cases h
  · intro h
    rw [hfirst (List.mem_of_getElem? h)]
    exact position_of_get hd h

/-- What is reported at an edge: its source, the first time it is met, or its target. -/
theorem mem_edgeDiag (hd : (ids nodes).Nodup) {pre : List Edge} {edge : Edge} {d : Diagnostic} :
    d ∈ edgeDiag nodes pre edge ↔
      (edge.source ∉ ids nodes ∧ (∀ e ∈ pre, e.source ≠ edge.source) ∧ d = sourceDiag pre edge) ∨
        ∃ i, (ids nodes)[i]? = some edge.source ∧ edge.target ∉ ids nodes ∧ d = targetDiag i pre edge := by
  cases hs : firstOf nodes edge.source with
  | none =>
    have hsource := (firstOf_none hne).mp hs
    unfold edgeDiag
    simp only [hs, ← sourcePath_render]
    constructor
    · intro h
      split at h
      · cases h
      · rename_i hseen
        refine .inl ⟨hsource, fun e he heq => hseen ?_, List.mem_singleton.mp h⟩
        exact List.any_eq_true.mpr ⟨e, he, beq_iff_eq.mpr heq⟩
    · intro h
      rcases h with ⟨-, hfirst, rfl⟩ | ⟨i, hi, -⟩
      · rw [if_neg, List.mem_singleton]
        · rfl
        · intro hseen
          obtain ⟨e, he, heq⟩ := List.any_eq_true.mp hseen
          exact hfirst e he (beq_iff_eq.mp heq)
      · exact absurd (List.mem_of_getElem? hi) hsource
  | some first =>
    have hi := (firstOf_some hne hd).mp hs
    by_cases ht : (firstOf nodes edge.target).isSome
    · have hnil : edgeDiag nodes pre edge = [] := by simp only [edgeDiag, hs, ht, if_true]
      rw [hnil]
      constructor
      · intro h
        cases h
      · intro h
        rcases h with ⟨hsource, -⟩ | ⟨i, -, htarget, -⟩
        · exact absurd (List.mem_of_getElem? hi) hsource
        · exact absurd (firstOf_isSome.mp ht).2 htarget
    · rw [edgeDiag_unknown hs ht, List.mem_singleton]
      constructor
      · intro h
        exact .inr ⟨first, hi, fun htarget => ht (firstOf_isSome.mpr ⟨hne _ htarget, htarget⟩), h⟩
      · intro h
        rcases h with ⟨hsource, -⟩ | ⟨i, hi', -, rfl⟩
        · exact absurd (List.mem_of_getElem? hi) hsource
        · rw [(firstOf_some hne hd).mpr hi'] at hs
          obtain rfl := Option.some.inj hs
          rfl

end Reports

theorem edgeDiag_length_le (nodes : List Node) (pre : List Edge) (edge : Edge) :
    (edgeDiag nodes pre edge).length ≤ 1 := by
  unfold edgeDiag
  split <;> split <;> simp

/-- A report that only the edge here makes is made once. -/
theorem countP_report {system : System} {nodes : List Node} {edges pre post : List Edge} {edge : Edge} {d : Diagnostic}
    {p : Diagnostic → Bool} (hcode : ∀ d, p d = true → d.code = .danglingEdge) (hnodes : nodes ≠ [])
    (he : edges = pre ++ edge :: post) (hd : d ∈ edgeDiag nodes pre edge) (hp : p d = true)
    (honly : ∀ m₁ y m₂, edges = m₁ ++ y :: m₂ → ∀ d ∈ edgeDiag nodes m₁ y, p d = true → m₁ = pre) :
    (validateGraph system nodes edges).countP p = 1 := by
  rw [countP_dangling hnodes hcode]
  refine countP_emit_one he ?_ fun m₁ y m₂ hm hex => ?_
  · have hpos : 0 < (edgeDiag nodes pre edge).countP p := List.countP_pos_iff.mpr ⟨d, hd, hp⟩
    have hle := List.countP_le_length (p := p) (l := edgeDiag nodes pre edge)
    have hone := edgeDiag_length_le nodes pre edge
    omega
  · obtain ⟨d, hd, hp⟩ := hex
    exact honly m₁ y m₂ hm d hd hp

/-- An edge of unknown source is kept where `unknownLast` has it. -/
theorem unknownLast_get {system : System} {nodes : List Node} {edges pre post : List Edge} {edge : Edge}
    (hd : (ids nodes).Nodup) (he : (indexed system nodes edges).edges = pre ++ edge :: post)
    (hsource : edge.source ∉ ids nodes) : (unknownLast nodes edges)[pre.length]? = some edge := by
  have hget : (indexed system nodes edges).edges[pre.length]? = some edge := getElem?_split.mpr ⟨pre, post, he, rfl⟩
  have htotal := (rebuilt_edges_perm system nodes edges).length_eq
  have hparts :
      edges.length = (edges.filter fun edge => edge.source ∈ ids nodes).length + (strays nodes edges).length := by
    have := List.length_eq_length_filter_add (l := edges) fun edge => decide (edge.source ∈ ids nodes)
    simpa [strays] using this
  rw [indexed_edges_strays hd] at hget htotal
  rw [List.length_append] at htotal
  have hge : (group (ids nodes) Edge.source edges).length ≤ pre.length := by
    by_contra hlt
    rw [List.getElem?_append_left (by omega)] at hget
    exact hsource (mem_group.mp (List.mem_of_getElem? hget)).2
  rw [List.getElem?_append_right hge] at hget
  rw [unknownLast, List.getElem?_append_right (by omega), ← hget]
  congr 1
  omega

theorem leavesUnknown_inj {source source' : String} (h : leavesUnknown source = leavesUnknown source') :
    source = source' := by
  unfold leavesUnknown at h
  have := congrArg String.toList h
  simp only [String.toList_append, List.append_assoc, List.append_cancel_left_eq, List.append_cancel_right_eq] at this
  exact String.toList_inj.mp this

theorem namesUnknown_ne (source target id : String) : namesUnknown source target ≠ leavesUnknown id := by
  unfold namesUnknown leavesUnknown
  intro h
  have := congrArg (fun text => text.toList.head?) h
  simp [String.toList_append] at this

section Kept

variable {nodes : List Node} (hnodes : nodes ≠ []) (hne : ∀ id ∈ ids nodes, id ≠ "") (hd : (ids nodes).Nodup)
include hnodes hne hd

/-- An unknown source is reported at the first of its edges only. -/
theorem source_reported_once (system : System) {edges : List Edge} {edge : Edge} (hedge : edge ∈ edges)
    (hsource : edge.source ∉ ids nodes) :
    (validateGraph system nodes edges).countP (reportsSource edge.source) = 1 := by
  obtain ⟨pre, first, post, he, hfirst, hpre⟩ := first_split (p := (·.source == edge.source)) hedge (beq_self_eq_true _)
  have hsame : first.source = edge.source := beq_iff_eq.mp hfirst
  have hunseen : ∀ e ∈ pre, e.source ≠ first.source := by
    intro e hmem
    rw [hsame]
    exact beq_eq_false_iff_ne.mp (hpre e hmem)
  have hdiag : sourceDiag pre first ∈ edgeDiag nodes pre first :=
    (mem_edgeDiag hne hd).mpr (.inl ⟨hsame ▸ hsource, hunseen, rfl⟩)
  have hcode : ∀ d, reportsSource edge.source d = true → d.code = .danglingEdge := fun d h =>
    beq_iff_eq.mp (Bool.and_eq_true_iff.mp h).1
  refine countP_report hcode hnodes he hdiag (by simp [reportsSource, sourceDiag, hsame]) fun m₁ y m₂ hm d hmem hp => ?_
  have hmessage : d.message = leavesUnknown edge.source := beq_iff_eq.mp (Bool.and_eq_true_iff.mp hp).2
  rcases (mem_edgeDiag hne hd).mp hmem with ⟨-, hseen, rfl⟩ | ⟨i, -, -, rfl⟩
  · have hy : y.source = edge.source := leavesUnknown_inj hmessage
    have hnone : ∀ e ∈ m₁, (e.source == edge.source) = false := fun e h => beq_eq_false_iff_ne.mpr (hy ▸ hseen e h)
    refine split_unique (p := (·.source == edge.source)) (hm.symm.trans he) (beq_iff_eq.mpr hy) hfirst ?_
    rw [List.countP_eq_zero.mpr (by simpa using hnone), List.countP_eq_zero.mpr (by simpa using hpre)]
  · exact (namesUnknown_ne _ _ _ hmessage).elim

/-- An unknown target is reported at its own place in its source's list only. -/
theorem target_reported_once (system : System) {edges pre post : List Edge} {edge : Edge} {i : Nat}
    (he : edges = pre ++ edge :: post) (hi : (ids nodes)[i]? = some edge.source) (htarget : edge.target ∉ ids nodes) :
    (validateGraph system nodes edges).countP (reportsAt (entryPath i edge.kind (ordinalOf pre edge))) = 1 := by
  have hdiag : targetDiag i pre edge ∈ edgeDiag nodes pre edge :=
    (mem_edgeDiag hne hd).mpr (.inr ⟨i, hi, htarget, rfl⟩)
  have hcode : ∀ d, reportsAt (entryPath i edge.kind (ordinalOf pre edge)) d = true → d.code = .danglingEdge :=
    fun d h => beq_iff_eq.mp (Bool.and_eq_true_iff.mp h).1
  refine countP_report hcode hnodes he hdiag (by simp [reportsAt, targetDiag]) fun m₁ y m₂ hm d hmem hp => ?_
  have hpath : d.path = (entryPath i edge.kind (ordinalOf pre edge)).render :=
    beq_iff_eq.mp (Bool.and_eq_true_iff.mp hp).2
  rcases (mem_edgeDiag hne hd).mp hmem with ⟨-, -, rfl⟩ | ⟨j, hj, -, rfl⟩
  · exact (entryPath_ne_source _ _ _ _ hpath).elim
  · obtain ⟨rfl, hkind, hordinal⟩ := entryPath_inj hpath
    have hsource : y.source = edge.source := Option.some.inj (hj.symm.trans hi)
    have hcount : m₁.countP (fun e => e.source == edge.source && e.kind == edge.kind) = ordinalOf pre edge := by
      rw [← hordinal, ordinalOf, hsource, hkind]
    exact split_unique (p := fun e => e.source == edge.source && e.kind == edge.kind) (hm.symm.trans he)
      (by simp [hsource, hkind]) (by simp) hcount

end Kept

/-- The check of the edges kept points at the caller's. -/
theorem validateGraph_located {nodes : List Node} (hnodes : nodes ≠ []) (hne : ∀ id ∈ ids nodes, id ≠ "")
    (hd : (ids nodes).Nodup) (system : System) (edges : List Edge) :
    Located (unknownLast nodes edges) nodes edges (validateGraph system nodes (indexed system nodes edges).edges) := by
  constructor
  · intro d hmem hcode
    obtain ⟨-, pre, edge, post, he, hdiag⟩ := mem_dangling.mp ⟨hmem, hcode⟩
    rcases (mem_edgeDiag hne hd).mp hdiag with ⟨-, -, rfl⟩ | ⟨i, -, -, rfl⟩
    · exact .inl ⟨_, rfl⟩
    · exact .inr ⟨_, _, _, rfl⟩
  · intro d hmem hcode e hpath
    obtain ⟨-, pre, edge, post, he, hdiag⟩ := mem_dangling.mp ⟨hmem, hcode⟩
    rcases (mem_edgeDiag hne hd).mp hdiag with ⟨hsource, -, rfl⟩ | ⟨i, -, -, rfl⟩
    · obtain rfl := sourcePath_inj hpath
      exact ⟨edge, unknownLast_get hd he hsource, hsource, rfl⟩
    · exact (entryPath_ne_source _ _ _ _ hpath.symm).elim
  · intro d hmem hcode i kind k hpath
    obtain ⟨-, pre, edge, post, he, hdiag⟩ := mem_dangling.mp ⟨hmem, hcode⟩
    rcases (mem_edgeDiag hne hd).mp hdiag with ⟨-, -, rfl⟩ | ⟨j, hj, htarget, rfl⟩
    · exact (entryPath_ne_source _ _ _ _ hpath).elim
    · obtain ⟨rfl, rfl, rfl⟩ := entryPath_inj hpath
      have hid := List.mem_of_getElem? hj
      rw [ids, List.getElem?_map] at hj
      obtain ⟨node, hnode, hsource⟩ := Option.map_eq_some_iff.mp hj
      refine ⟨node, edge, hnode, ?_, htarget, by rw [hsource]; rfl⟩
      rw [hsource, ← leavingBy_kept hd system edges hid]
      exact getElem?_filter_split.mpr ⟨pre, post, he, by simp, rfl⟩
  · intro edge hedge hsource
    exact source_reported_once hnodes hne hd system (mem_indexed_edges.mpr hedge) hsource
  · intro pre edge post i he hi htarget
    have hat :
        (leavingBy (indexed system nodes edges).edges edge.source edge.kind)[ordinalOf pre edge]? = some edge := by
      rw [leavingBy_kept hd system edges (List.mem_of_getElem? hi)]
      exact getElem?_filter_split.mpr ⟨pre, post, he, by simp, rfl⟩
    obtain ⟨l₁, l₂, hkept, -, hcount⟩ := getElem?_filter_split.mp hat
    have hcount : ordinalOf l₁ edge = ordinalOf pre edge := hcount
    rw [← hcount]
    exact target_reported_once hnodes hne hd system hkept hi htarget

/-! ## Rejected input -/

theorem Rejects.diags {nodes : List Node} {edges : List Edge} {diags : Diagnostics} (h : Rejects nodes edges diags) :
    ∃ system, diags = validateGraph system nodes (indexed system nodes edges).edges := by
  have of_create : ∀ {system nodes edges}, Graph.create system nodes edges = .error diags →
      diags = validateGraph system nodes (indexed system nodes edges).edges := by
    intro system nodes edges hc
    rw [create_eq] at hc
    split at hc
    · exact (Except.error.inj hc).symm
    · cases hc
  cases h with
  | create hc => exact ⟨_, of_create hc⟩
  | build hb => exact ⟨_, of_create (builtBy_eq _ ▸ hb)⟩

/-- With the edges of unknown source at the end, nothing is moved there. -/
theorem unknownLast_eq_self {nodes : List Node} {edges : List Edge}
    (h : edges.Pairwise fun a b => b.source ∈ ids nodes → a.source ∈ ids nodes) : unknownLast nodes edges = edges := by
  let known := fun edge : Edge => decide (edge.source ∈ ids nodes)
  have hkeys : ∀ edge ∈ edges, known edge = true ∨ known edge = false := fun edge _ => by cases known edge <;> simp
  have horder : edges.Pairwise fun a b => known b = true → known a = true := h.imp fun hab => by simpa [known] using hab
  have hgroup := (group_pair_eq_self (by decide) hkeys).mpr horder
  rw [group_cons_key, group_cons_key, group_no_keys, List.append_nil] at hgroup
  refine Eq.trans ?_ hgroup
  simp [unknownLast, strays, bucket, known]

/-- The reports of `create` and `build` about dangling edges point at the caller's edges, in the
    caller's order but for those of unknown source, which are counted last. -/
theorem rejects_located {nodes : List Node} {edges : List Edge} {diags : Diagnostics} (h : Rejects nodes edges diags)
    (hnodes : nodes ≠ []) (hne : ∀ id ∈ ids nodes, id ≠ "") (hd : (ids nodes).Nodup) :
    Located (unknownLast nodes edges) nodes edges diags ∧
      ((edges.Pairwise fun a b => b.source ∈ ids nodes → a.source ∈ ids nodes) → Located edges nodes edges diags) := by
  obtain ⟨system, rfl⟩ := h.diags
  have hlocated := validateGraph_located hnodes hne hd system edges
  refine ⟨hlocated, fun hlast => ?_⟩
  rw [unknownLast_eq_self hlast] at hlocated
  exact hlocated

theorem rejects_located_both :
    ∃ diags, Graph.create {} [{ id := "a", initial := true }] [⟨"ghost", "a", .transition⟩, ⟨"a", "b", .loopback⟩] =
        .error diags ∧
      Located [⟨"a", "b", .loopback⟩, ⟨"ghost", "a", .transition⟩] [{ id := "a", initial := true }]
        [⟨"ghost", "a", .transition⟩, ⟨"a", "b", .loopback⟩] diags := by
  obtain ⟨diags, h⟩ : ∃ diags, Graph.create {} [{ id := "a", initial := true }]
      [⟨"ghost", "a", .transition⟩, ⟨"a", "b", .loopback⟩] = .error diags := ⟨_, rfl⟩
  exact ⟨diags, h, (rejects_located (.create h) (by simp) (by simp [ids]) (by simp [ids])).1⟩

/-- An edge listed before one of known source is reported where that one ends up, and with no
    node nothing is reported about the edges. -/
theorem rejects_moved :
    (∃ diags, Rejects [{ id := "a", initial := true }] [⟨"ghost", "a", .transition⟩, ⟨"a", "a", .transition⟩] diags ∧
      ¬ Located [⟨"ghost", "a", .transition⟩, ⟨"a", "a", .transition⟩] [{ id := "a", initial := true }]
        [⟨"ghost", "a", .transition⟩, ⟨"a", "a", .transition⟩] diags) ∧
      ∃ diags, Rejects [] [⟨"ghost", "a", .transition⟩] diags ∧
        ¬ Located [⟨"ghost", "a", .transition⟩] [] [⟨"ghost", "a", .transition⟩] diags := by
  constructor
  · have h : Graph.create {} [{ id := "a", initial := true }] [⟨"ghost", "a", .transition⟩, ⟨"a", "a", .transition⟩] =
        .error [⟨.danglingEdge, .error, "edges[1].source", "edge leaves unknown node \"ghost\""⟩] := rfl
    refine ⟨_, .create h, fun hlocated => ?_⟩
    obtain ⟨edge, hedge, hsource, -⟩ := hlocated.atSource _ (List.mem_singleton_self _) rfl 1 rfl
    obtain rfl := Option.some.inj hedge
    exact hsource (by decide)
  · have h : Graph.create {} [] [⟨"ghost", "a", .transition⟩] =
        .error [⟨.nodesMissing, .error, "nodes", "a graph needs at least one node"⟩] := rfl
    refine ⟨_, .create h, fun hlocated => ?_⟩
    have hnone := hlocated.everySource _ (List.mem_singleton_self _) (by simp [ids])
    cases hnone

end Stgx
