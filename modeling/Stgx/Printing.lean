/-
  Stgx.Printing — diagnostics as text (`Diagnostics::to_string`).

  - `report_lines`: a report has its diagnostics one a line, unless a path or a message
    has a line break of its own.
  - `report_tells`: the text of such a report tells the severities and the codes.
-/

import Mathlib.Data.List.Basic
import Stgx.Diagnostics

namespace Stgx

/-- The lines of a text. -/
def lines (text : String) : List (List Char) := text.toList.splitOn '\n'

/-! ## Lines -/

theorem lines_append_break (text rest : String) : lines (text ++ "\n" ++ rest) = lines text ++ lines rest := by
  rw [lines, String.toList_append, String.toList_append, List.append_assoc]
  exact List.splitOn_append_cons_self _ _

theorem lines_length_pos (text : String) : 0 < (lines text).length :=
  List.length_pos_iff.mpr (List.splitOn_ne_nil _ _)

theorem lines_eq_singleton_iff (text : String) : lines text = [text.toList] ↔ '\n' ∉ text.toList := by
  constructor
  · intro h hmem
    obtain ⟨before, after, hsplit⟩ := List.append_of_mem hmem
    have hlength : (lines text).length = 1 := by rw [h, List.length_singleton]
    have hbefore := List.length_pos_iff.mpr (List.splitOn_ne_nil '\n' before)
    have hafter := List.length_pos_iff.mpr (List.splitOn_ne_nil '\n' after)
    rw [lines, hsplit, List.splitOn_append_cons_self, List.length_append] at hlength
    omega
  · exact List.splitOn_eq_singleton

/-- Texts that together have as many lines as there are texts have one each. -/
theorem lines_of_flatMap {texts : List String} (h : texts.flatMap lines = texts.map String.toList) :
    ∀ text ∈ texts, lines text = [text.toList] := by
  induction texts with
  | nil => exact fun _ h => absurd h List.not_mem_nil
  | cons text texts ih =>
    have hle : texts.length ≤ (texts.flatMap lines).length := by
      clear h ih
      induction texts with
      | nil => exact Nat.le_refl 0
      | cons text texts ih =>
        have := lines_length_pos text
        rw [List.flatMap_cons, List.length_append, List.length_cons]
        omega
    have hlength := congrArg List.length h
    have hpos := lines_length_pos text
    rw [List.flatMap_cons, List.length_append, List.length_map, List.length_cons] at hlength
    obtain ⟨line, hline⟩ := List.length_eq_one_iff.mp (show (lines text).length = 1 by omega)
    rw [List.flatMap_cons, hline, List.map_cons, List.singleton_append, List.cons.injEq] at h
    rw [List.forall_mem_cons, hline, h.1]
    exact ⟨rfl, ih h.2⟩

/-! ## Reports -/

/-- What is printed in front of the path. -/
def Diagnostic.head (diag : Diagnostic) : String := diag.severity.toString ++ "[" ++ diag.code.toString ++ "]"

theorem Diagnostic.toString_eq (diag : Diagnostic) :
    diag.toString = diag.head ++ ((if diag.path.isEmpty then "" else " " ++ diag.path) ++
      (if diag.message.isEmpty then "" else ": " ++ diag.message)) := String.append_assoc ..

theorem Diagnostic.toString_ne_empty (diag : Diagnostic) : diag.toString ≠ "" := by
  rw [toString_eq]
  intro h
  have hlist := congrArg String.toList h
  rw [String.toList_append, head, String.toList_append, String.toList_append] at hlist
  cases hs : diag.severity <;> simp [hs, Severity.toString] at hlist

/-- No line break in what a diagnostic was given. -/
def Diagnostic.OneLine (diag : Diagnostic) : Prop := '\n' ∉ diag.path.toList ∧ '\n' ∉ diag.message.toList

theorem oneLine_iff (diag : Diagnostic) : '\n' ∉ diag.toString.toList ↔ diag.OneLine := by
  have hhead : '\n' ∉ diag.head.toList := by
    rw [Diagnostic.head, String.toList_append, String.toList_append, String.toList_append]
    cases diag.severity <;> cases diag.code <;> decide
  rw [Diagnostic.toString_eq]
  simp only [String.toList_append, List.mem_append, hhead, false_or, not_or]
  refine and_congr ?_ ?_
  · by_cases h : diag.path = ""
    · simp [h]
    · simp [h]
  · by_cases h : diag.message = ""
    · simp [h]
    · simp [h]

namespace Diagnostics

theorem lines_foldl (diags : Diagnostics) {out : String} (h : out ≠ "") :
    lines (diags.foldl addLine out) = lines out ++ diags.flatMap fun diag => lines diag.toString := by
  induction diags generalizing out with
  | nil => simp
  | cons diag diags ih =>
    have hstep : addLine out diag = out ++ "\n" ++ diag.toString := by simp [addLine, h]
    have hne : out ++ "\n" ++ diag.toString ≠ "" := by simp [h]
    rw [List.foldl_cons, hstep, ih hne, lines_append_break, List.flatMap_cons, List.append_assoc]

/-- A report has the lines of each of its diagnostics. -/
theorem lines_toString {diags : Diagnostics} (h : diags ≠ []) :
    lines diags.toString = (diags.map Diagnostic.toString).flatMap lines := by
  cases diags with
  | nil => exact absurd rfl h
  | cons diag diags =>
    have hstep : addLine "" diag = diag.toString := by simp [addLine]
    rw [toString, List.foldl_cons, hstep, lines_foldl diags diag.toString_ne_empty, List.map_cons, List.flatMap_cons,
      List.flatMap_map]

theorem flatMap_lines {diags : Diagnostics} (h : ∀ diag ∈ diags, diag.OneLine) :
    (diags.map Diagnostic.toString).flatMap lines = (diags.map Diagnostic.toString).map String.toList := by
  rw [List.flatMap_map, List.map_map, List.map_eq_flatMap]
  exact List.flatMap_congr fun diag hdiag => (lines_eq_singleton_iff _).mpr ((oneLine_iff diag).mpr (h diag hdiag))

theorem toString_eq_empty_iff (diags : Diagnostics) : diags.toString = "" ↔ diags = [] := by
  have hfoldl : ∀ (diags : Diagnostics) (out : String), out ≠ "" → diags.foldl addLine out ≠ "" := by
    intro diags
    induction diags with
    | nil => exact fun _ h => h
    | cons diag diags ih => exact fun out h => ih _ (by simp [addLine, h])
  cases diags with
  | nil => exact iff_of_true rfl rfl
  | cons diag diags =>
    have hstep : addLine "" diag = diag.toString := by simp [addLine]
    refine iff_of_false ?_ (List.cons_ne_nil _ _)
    rw [toString, List.foldl_cons, hstep]
    exact hfoldl diags _ diag.toString_ne_empty

end Diagnostics

/-- A report has its diagnostics one a line exactly when none of them breaks a line itself. -/
theorem report_lines {diags : Diagnostics} (h : diags ≠ []) :
    lines diags.toString = (diags.map Diagnostic.toString).map String.toList ↔ ∀ diag ∈ diags, diag.OneLine := by
  rw [Diagnostics.lines_toString h]
  constructor
  · intro hlines diag hdiag
    rw [← oneLine_iff, ← lines_eq_singleton_iff]
    exact lines_of_flatMap hlines _ (List.mem_map_of_mem hdiag)
  · exact Diagnostics.flatMap_lines

theorem report_lines_pair : lines (Diagnostics.toString [Diag.nodeIdEmpty, Diag.nodeNotFound "a"]) =
    ["error[node_id_empty]: node id must not be empty".toList,
      "error[node_not_found]: node \"a\" does not exist".toList] :=
  (report_lines (by decide)).mpr (by unfold Diagnostic.OneLine; decide)

/-! ## What a line tells -/

def codes : List DiagCode :=
  [.yamlParse, .schemaVersion, .nodesMissing, .nodeIdEmpty, .nodeIdDuplicate, .nodeNotFound, .danglingEdge,
    .initialCount, .taskArityMismatch, .notAnInt, .wrongType, .badRelease, .unsupportedField, .unknownField, .ioError]

theorem find_code (code : DiagCode) : (codes.find? fun other => other.toString = code.toString) = some code := by
  cases code <;> decide

theorem code_inj {code other : DiagCode} (h : code.toString = other.toString) : code = other := by
  have hfound := find_code code
  rw [h, find_code other] at hfound
  exact (Option.some.inj hfound).symm

theorem severity_inj {severity other : Severity} (h : severity.toString = other.toString) : severity = other := by
  cases severity <;> cases other <;> first | rfl | exact absurd h (by decide)

/-- The names of the severity and the code in a line. -/
def headOf (line : List Char) : List Char × List Char :=
  (line.takeWhile (· ≠ '['), ((line.dropWhile (· ≠ '[')).drop 1).takeWhile (· ≠ ']'))

theorem headOf_toString (diag : Diagnostic) :
    headOf diag.toString.toList = (diag.severity.toString.toList, diag.code.toString.toList) := by
  have hseverity : ∀ c ∈ diag.severity.toString.toList, decide (c ≠ '[') = true :=
    List.all_eq_true.mp (by cases diag.severity <;> rfl)
  have hcode : ∀ c ∈ diag.code.toString.toList, decide (c ≠ ']') = true :=
    List.all_eq_true.mp (by cases diag.code <;> rfl)
  have htext : ∃ rest, diag.toString.toList =
      diag.severity.toString.toList ++ '[' :: (diag.code.toString.toList ++ ']' :: rest) := by
    rw [Diagnostic.toString_eq, Diagnostic.head]
    simp only [String.toList_append, List.append_assoc]
    exact ⟨_, rfl⟩
  obtain ⟨rest, htext⟩ := htext
  have htail : (diag.code.toString.toList ++ ']' :: rest).takeWhile (fun c => decide (c ≠ ']')) =
      diag.code.toString.toList := by
    rw [List.takeWhile_append_of_pos hcode, List.takeWhile_cons_of_neg (by decide), List.append_nil]
  rw [headOf, htext, List.takeWhile_append_of_pos hseverity, List.dropWhile_append_of_pos hseverity,
    List.takeWhile_cons_of_neg (by decide), List.append_nil, List.dropWhile_cons_of_neg (by decide), List.drop_one,
    List.tail_cons, htail]

/-- Reports with the same text, no diagnostic of which breaks a line, have the same severities and
    codes in the same order. -/
theorem report_tells {diags others : Diagnostics} (hdiags : ∀ diag ∈ diags, diag.OneLine)
    (hothers : ∀ diag ∈ others, diag.OneLine) (h : diags.toString = others.toString) :
    diags.map (fun diag => (diag.severity, diag.code)) = others.map fun diag => (diag.severity, diag.code) := by
  by_cases hempty : diags = []
  · subst hempty
    rw [(Diagnostics.toString_eq_empty_iff others).mp h.symm]
  · have hothers' : others ≠ [] := fun hnil =>
      hempty ((Diagnostics.toString_eq_empty_iff diags).mp
        (h.trans ((Diagnostics.toString_eq_empty_iff others).mpr hnil)))
    have hlines := congrArg lines h
    rw [Diagnostics.lines_toString hempty, Diagnostics.lines_toString hothers', Diagnostics.flatMap_lines hdiags,
      Diagnostics.flatMap_lines hothers] at hlines
    have hheads := congrArg (List.map headOf) hlines
    simp only [List.map_map, Function.comp_def, headOf_toString] at hheads
    have hinj : Function.Injective fun name : Severity × DiagCode =>
        (name.1.toString.toList, name.2.toString.toList) := by
      rintro ⟨severity, code⟩ ⟨severity', code'⟩ he
      have hseverity : severity = severity' := severity_inj (String.toList_inj.mp (Prod.mk.inj he).1)
      have hcode : code = code' := code_inj (String.toList_inj.mp (Prod.mk.inj he).2)
      rw [hseverity, hcode]
    refine List.map_injective_iff.mpr hinj ?_
    simpa only [List.map_map, Function.comp_def] using hheads

/-- The line does not tell where the path ends. -/
theorem report_tells_colon :
    [(⟨.wrongType, .error, "a: b", ""⟩ : Diagnostic)].map (fun diag => (diag.severity, diag.code)) =
      [(⟨.wrongType, .error, "a", "b"⟩ : Diagnostic)].map fun diag => (diag.severity, diag.code) :=
  report_tells (by unfold Diagnostic.OneLine; decide) (by unfold Diagnostic.OneLine; decide) (by decide)

end Stgx
