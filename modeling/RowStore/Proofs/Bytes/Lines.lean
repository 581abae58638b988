import RowStore.Bytes.Decimal
import RowStore.Command

/-!
# Texts on one line

A string without a newline can stand on one line (`Bytes.OneLine`). Words and numerals can,
and what is printed as lines is read back as the same lines (`Bytes.lines_flatMap_asLine`).
-/

set_option autoImplicit false

namespace RowStore

namespace Bytes

/-- The string has no newline. -/
def OneLine (bytes : Bytes) : Prop := 10 ∉ bytes

instance (bytes : Bytes) : Decidable bytes.OneLine := inferInstanceAs (Decidable (10 ∉ bytes))

variable {bytes front back line word : Bytes}

theorem OneLine.of_subset (whole : bytes.OneLine) (part : word ⊆ bytes) : word.OneLine :=
  fun newline => whole (part newline)

@[simp]
theorem oneLine_append : OneLine (front ++ back) ↔ front.OneLine ∧ back.OneLine := by
  rw [OneLine, List.mem_append, not_or]
  rfl

@[simp]
theorem oneLine_cons {byte : UInt8} : OneLine (byte :: bytes) ↔ 10 ≠ byte ∧ bytes.OneLine := by
  rw [OneLine, List.mem_cons, not_or]
  rfl

theorem oneLine_intercalate {separator : Bytes} (between : separator.OneLine) {parts : List Bytes}
    (each : ∀ part ∈ parts, part.OneLine) : OneLine (separator.intercalate parts) := by
  induction parts with
  | nil => exact List.not_mem_nil
  | cons first parts ih =>
    have others := ih fun part later => each part (List.mem_cons_of_mem _ later)
    have front := each first List.mem_cons_self
    cases parts with
    | nil => rwa [List.intercalate_singleton]
    | cons second parts =>
      rw [List.intercalate_cons_cons, oneLine_append, oneLine_append]
      exact ⟨⟨front, between⟩, others⟩

theorem oneLine_untilZero (whole : bytes.OneLine) : bytes.untilZero.OneLine :=
  whole.of_subset (List.takeWhile_sublist _).subset

theorem oneLine_withoutPadding (whole : bytes.OneLine) : bytes.withoutPadding.OneLine := by
  refine whole.of_subset fun byte member => ?_
  rw [withoutPadding, List.mem_reverse] at member
  exact List.mem_reverse.mp ((List.dropWhile_sublist _).subset member)

/-! ## Words and numerals -/

/-- What stands between separators has none. -/
theorem eq_false_of_mem_splitOnP {α : Type} {separates : α → Bool} {values piece : List α}
    (member : piece ∈ values.splitOnP separates) : ∀ value ∈ piece, separates value = false := by
  induction values generalizing piece with
  | nil =>
    rw [List.splitOnP_nil, List.mem_singleton] at member
    rw [member]
    exact List.forall_mem_nil _
  | cons first values ih =>
    rw [List.splitOnP_cons_eq_if_modifyHead] at member
    split at member
    next separator =>
      rcases List.mem_cons.mp member with rfl | later
      · exact List.forall_mem_nil _
      · exact ih later
    next solid =>
      obtain ⟨head, pieces, split⟩ := List.exists_cons_of_ne_nil
        (List.splitOnP_ne_nil separates values)
      rw [split] at ih member
      rw [List.modifyHead_cons] at member
      rcases List.mem_cons.mp member with rfl | later
      · intro value inside
        rcases List.mem_cons.mp inside with rfl | further
        · exact Bool.eq_false_iff.mpr solid
        · exact ih List.mem_cons_self value further
      · exact ih (List.mem_cons_of_mem _ later)

theorem eq_false_of_any {bytes : Bytes} (solid : bytes.any isBlank = false) :
    ∀ byte ∈ bytes, isBlank byte = false :=
  fun byte member => Bool.eq_false_iff.mpr (List.any_eq_false.mp solid byte member)

/-- A string without blanks is its only word. -/
theorem words_of_solid {bytes : Bytes} (solid : bytes.any isBlank = false) (nonempty : bytes ≠ []) :
    words bytes = [bytes] := by
  rw [words, List.splitOnP_eq_singleton (eq_false_of_any solid), List.filter_cons_of_pos,
    List.filter_nil]
  simpa using nonempty

theorem oneLine_of_solid {bytes : Bytes} (solid : bytes.any isBlank = false) : bytes.OneLine := by
  intro newline
  cases eq_false_of_any solid 10 newline

theorem oneLine_of_mem_words (member : word ∈ line.words) : word.OneLine := by
  intro newline
  have solid := eq_false_of_mem_splitOnP (List.mem_filter.mp member).1 10 newline
  cases solid

end Bytes

namespace Decimal

@[simp]
theorem oneLine_ofNat (number : Nat) : (ofNat number).OneLine := by
  intro newline
  have digit := List.all_eq_true.mp (all_isDigit_ofNat number) 10 newline
  cases digit

@[simp]
theorem oneLine_ofInt (number : Int) : (ofInt number).OneLine := by
  cases number with
  | ofNat number => exact oneLine_ofNat number
  | negSucc number => exact Bytes.oneLine_cons.mpr ⟨by decide, oneLine_ofNat _⟩

end Decimal

/-! ## Lines -/

namespace Bytes

variable {line : Bytes}

/-- A line in front of a text is its first line. -/
theorem lines_asLine_append (one : line.OneLine) (rest : Bytes) :
    lines (asLine line ++ rest) = line :: rest.lines := by
  obtain ⟨piece, pieces, split⟩ := List.exists_cons_of_ne_nil (List.splitOn_ne_nil 10 rest)
  have whole : (asLine line ++ rest).splitOn 10 = line :: piece :: pieces := by
    rw [asLine, List.append_assoc, List.singleton_append,
      List.splitOn_append_cons_self_of_not_mem one, split]
  rw [lines, lines, whole, split, List.getLast?_cons_cons]
  split
  · rfl
  · rfl

theorem lines_flatMap_asLine_append {texts : List Bytes} (each : ∀ text ∈ texts, text.OneLine)
    (rest : Bytes) : lines (texts.flatMap asLine ++ rest) = texts ++ rest.lines := by
  induction texts with
  | nil => rfl
  | cons text texts ih =>
    rw [List.flatMap_cons, List.append_assoc, lines_asLine_append (each text List.mem_cons_self),
      ih fun other later => each other (List.mem_cons_of_mem _ later), List.cons_append]

/-- **What is printed line by line is read as the same lines.** -/
theorem lines_flatMap_asLine {texts : List Bytes} (each : ∀ text ∈ texts, text.OneLine) :
    lines (texts.flatMap asLine) = texts := by
  have printed := lines_flatMap_asLine_append each []
  rw [List.append_nil] at printed
  exact printed.trans (List.append_nil texts)

theorem lines_asLine (one : line.OneLine) : lines (asLine line) = [line] := by
  have printed := lines_asLine_append one []
  rw [List.append_nil] at printed
  exact printed

end Bytes

end RowStore
