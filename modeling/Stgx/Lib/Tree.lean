/-
  Stgx.Lib.Tree — document trees of maps, sequences and scalars, and the event streams
  that build them.

  `lookup` answers with the first entry under a scalar key, whatever else the map holds.
  `build` reads a stream of emitter events as the one tree it sends. `Sends events trees`
  says that a stream sends these trees, wherever it stands; it is put together by the
  rules `Sends.append`, `Sends.sequence`, `Sends.mapping` and `Sends.entry`, and
  `Sends.build` reads the tree off.
-/

namespace Stgx.Lib.Doc

inductive Tree where
  | null
  | scalar (text : String)
  | sequence (items : List Tree)
  | mapping (entries : List (Tree × Tree))
  deriving Repr

abbrev Entry := Tree × Tree

namespace Tree

def isNull : Tree → Bool
  | .null => true
  | _ => false

def text? : Tree → Option String
  | .scalar text => some text
  | _ => none

def items? : Tree → Option (List Tree)
  | .sequence items => some items
  | _ => none

def entries? : Tree → Option (List Entry)
  | .mapping entries => some entries
  | _ => none

theorem text_eq_some {t : Tree} {text : String} : t.text? = some text ↔ t = .scalar text := by
  cases t <;> simp [text?]

theorem entries_eq_some {t : Tree} {entries : List Entry} : t.entries? = some entries ↔ t = .mapping entries := by
  cases t <;> simp [entries?]

/-- No mapping of the tree has the same key twice. -/
inductive DistinctKeys : Tree → Prop
  | null : DistinctKeys .null
  | scalar (text : String) : DistinctKeys (.scalar text)
  | sequence {items : List Tree} : (∀ t ∈ items, DistinctKeys t) → DistinctKeys (.sequence items)
  | mapping {entries : List Entry} : (entries.map Prod.fst).Nodup →
      (∀ entry ∈ entries, DistinctKeys entry.1) → (∀ entry ∈ entries, DistinctKeys entry.2) →
      DistinctKeys (.mapping entries)

end Tree

/-! ## Lookup -/

/-- The value of the first entry under the scalar key `name`. -/
def lookup (name : String) : List Entry → Option Tree
  | [] => none
  | (key, value) :: entries => if key.text? = some name then some value else lookup name entries

theorem lookup_append (name : String) (entries entries' : List Entry) :
    lookup name (entries ++ entries') = (lookup name entries).or (lookup name entries') := by
  induction entries with
  | nil => rfl
  | cons entry entries ih =>
    rw [List.cons_append, lookup, lookup]
    split
    · rfl
    · exact ih

theorem lookup_mem {name : String} {entries : List Entry} {value : Tree} (h : lookup name entries = some value) :
    (.scalar name, value) ∈ entries := by
  induction entries with
  | nil => cases h
  | cons entry entries ih =>
    obtain ⟨key, v⟩ := entry
    rw [lookup] at h
    split at h
    · rename_i hk
      obtain rfl := Tree.text_eq_some.mp hk
      obtain rfl := Option.some.inj h
      exact List.mem_cons_self
    · exact List.mem_cons_of_mem _ (ih h)

/-- Entries under other keys do not matter. -/
theorem lookup_filter {name : String} {p : Entry → Bool} (hp : ∀ value, p (.scalar name, value) = true)
    (entries : List Entry) : lookup name (entries.filter p) = lookup name entries := by
  induction entries with
  | nil => rfl
  | cons entry entries ih =>
    obtain ⟨key, value⟩ := entry
    by_cases hk : key.text? = some name
    · obtain rfl := Tree.text_eq_some.mp hk
      rw [List.filter_cons_of_pos (hp value), lookup, lookup, if_pos hk, if_pos hk]
    · rw [lookup, if_neg hk, ← ih]
      by_cases hq : p (key, value) = true
      · rw [List.filter_cons_of_pos hq, lookup, if_neg hk]
      · rw [List.filter_cons_of_neg hq]

/-- An entry that is there or not. -/
def optionalEntry (name : String) : Option Tree → List Entry
  | none => []
  | some value => [(.scalar name, value)]

theorem lookup_optionalEntry (name other : String) (value : Option Tree) :
    lookup name (optionalEntry other value) = if other = name then value else none := by
  cases value <;> simp [optionalEntry, lookup, Tree.text?]

/-- The entries of the fields that are there, in this order. -/
def written (fields : List (String × Option Tree)) : List Entry :=
  fields.flatMap fun field => optionalEntry field.1 field.2

theorem written_nil : written [] = [] := rfl

theorem written_cons (name : String) (value : Option Tree) (fields : List (String × Option Tree)) :
    written ((name, value) :: fields) = optionalEntry name value ++ written fields := List.flatMap_cons ..

@[simp] theorem lookup_written_nil (name : String) : lookup name (written []) = none := rfl

@[simp] theorem lookup_written_cons (name other : String) (value : Option Tree) (fields : List (String × Option Tree)) :
    lookup name (written ((other, value) :: fields)) =
      if other = name then value.or (lookup name (written fields)) else lookup name (written fields) := by
  rw [written_cons, lookup_append, lookup_optionalEntry]
  split
  · rfl
  · rfl

/-- Only the names of fields are keys. -/
theorem written_key {fields : List (String × Option Tree)} {entry : Entry} (h : entry ∈ written fields) :
    ∃ name ∈ fields.map Prod.fst, entry.1 = .scalar name := by
  obtain ⟨⟨name, value⟩, hfield, hentry⟩ := List.mem_flatMap.mp h
  refine ⟨name, List.mem_map_of_mem hfield, ?_⟩
  cases value with
  | none => cases hentry
  | some value => exact congrArg Prod.fst (List.mem_singleton.mp hentry)

/-! ## Events -/

inductive Event where
  | beginMap
  | endMap
  | beginSeq
  | endSeq
  | key
  | value
  | flow
  | scalar (text : String)
  deriving DecidableEq, Repr

/-- An open collection, with the nodes sent to it so far. -/
structure Frame where
  isMap : Bool
  nodes : List Tree

/-- A map's nodes are its keys and values by turns. -/
def pairs : List Tree → Option (List Entry)
  | [] => some []
  | key :: value :: nodes => (pairs nodes).map ((key, value) :: ·)
  | [_] => none

def Frame.push (frame : Frame) (nodes : List Tree) : Frame := { frame with nodes := frame.nodes ++ nodes }

def step : List Frame → Event → Option (List Frame)
  | stack, .key | stack, .value | stack, .flow => some stack
  | frame :: stack, .scalar text => some (frame.push [.scalar text] :: stack)
  | stack, .beginMap => some (⟨true, []⟩ :: stack)
  | stack, .beginSeq => some (⟨false, []⟩ :: stack)
  | frame :: outer :: stack, .endMap =>
    if frame.isMap then (pairs frame.nodes).map fun entries => outer.push [.mapping entries] :: stack else none
  | frame :: outer :: stack, .endSeq =>
    if frame.isMap then none else some (outer.push [.sequence frame.nodes] :: stack)
  | _, _ => none

/-- The one tree a stream of events sends. -/
def build (events : List Event) : Option Tree :=
  match events.foldlM step [⟨false, []⟩] with
  | some [⟨_, [t]⟩] => some t
  | _ => none

/-- Whatever collection is open, the events add these nodes to it. -/
def Sends (events : List Event) (nodes : List Tree) : Prop :=
  ∀ frame stack, events.foldlM step (frame :: stack) = some (frame.push nodes :: stack)

/-- The nodes of a map's entries. -/
def flat (entries : List Entry) : List Tree := entries.flatMap fun entry => [entry.1, entry.2]

theorem pairs_flat (entries : List Entry) : pairs (flat entries) = some entries := by
  induction entries with
  | nil => rfl
  | cons entry entries ih =>
    show (pairs (flat entries)).map (entry :: ·) = _
    rw [ih]
    rfl

theorem flat_append (entries entries' : List Entry) : flat (entries ++ entries') = flat entries ++ flat entries' :=
  List.flatMap_append ..

@[simp] theorem Frame.push_nil (frame : Frame) : frame.push [] = frame := by
  simp [Frame.push]

theorem Frame.push_push (frame : Frame) (nodes nodes' : List Tree) :
    (frame.push nodes).push nodes' = frame.push (nodes ++ nodes') := by
  simp [Frame.push]

namespace Sends

theorem nil : Sends [] [] := fun frame stack => by
  rw [Frame.push_nil]
  rfl

theorem append {events events' : List Event} {nodes nodes' : List Tree} (h : Sends events nodes)
    (h' : Sends events' nodes') : Sends (events ++ events') (nodes ++ nodes') := by
  intro frame stack
  rw [List.foldlM_append, h frame stack, ← Frame.push_push]
  exact h' (frame.push nodes) stack

theorem flatMap {α : Type} {events : α → List Event} {nodes : α → List Tree} (l : List α)
    (h : ∀ x ∈ l, Sends (events x) (nodes x)) : Sends (l.flatMap events) (l.flatMap nodes) := by
  induction l with
  | nil => exact nil
  | cons x l ih =>
    exact (h x List.mem_cons_self).append (ih fun y hy => h y (List.mem_cons_of_mem _ hy))

theorem scalar (text : String) : Sends [.scalar text] [.scalar text] := fun _ _ => rfl

theorem flow {events : List Event} {nodes : List Tree} (h : Sends events nodes) : Sends (.flow :: events) nodes := h

theorem sequence {events : List Event} {nodes : List Tree} (h : Sends events nodes) :
    Sends (.beginSeq :: events ++ [.endSeq]) [.sequence nodes] := by
  intro frame stack
  rw [List.foldlM_append, List.foldlM_cons]
  show ((events.foldlM step (⟨false, []⟩ :: frame :: stack)).bind _) = _
  rw [h]
  rfl

theorem mapping {events : List Event} {entries : List Entry} (h : Sends events (flat entries)) :
    Sends (.beginMap :: events ++ [.endMap]) [.mapping entries] := by
  intro frame stack
  rw [List.foldlM_append, List.foldlM_cons]
  show ((events.foldlM step (⟨true, []⟩ :: frame :: stack)).bind _) = _
  rw [h]
  show ((pairs ([] ++ flat entries)).map _).bind _ = _
  rw [List.nil_append, pairs_flat]
  rfl

theorem entry {name : String} {events : List Event} {t : Tree} (h : Sends events [t]) :
    Sends (.key :: .scalar name :: .value :: events) (flat [(.scalar name, t)]) := by
  have hkey : Sends [.key, .scalar name, .value] [.scalar name] := fun _ _ => rfl
  exact hkey.append h

theorem build {events : List Event} {t : Tree} (h : Sends events [t]) : build events = some t := by
  unfold Doc.build
  rw [h]
  rfl

end Sends

end Stgx.Lib.Doc
