import RowStore.Proofs.Bytes.Lines

/-!
# Words on a line

A line gives its words away, however many blanks stand in front of them, between them and
behind them. `Bytes.LaidOut` says how words may be spread over a line, and a line has exactly
the words that it lays out (`Bytes.words_eq_iff`). So nothing but the blanks between them is
lost of words that are put on a line, and every line lays out some words.
-/

set_option autoImplicit false

namespace RowStore

namespace Bytes

/-- The words stand on the line in this order, with blanks anywhere around them, and each one ends
where a blank or the end of the line comes. -/
inductive LaidOut : List Bytes → Bytes → Prop where
  | blank {gap : Bytes} : (∀ byte ∈ gap, isBlank byte = true) → LaidOut [] gap
  | word {gap word rest : Bytes} {words : List Bytes} :
      (∀ byte ∈ gap, isBlank byte = true) →
      word ≠ [] → (∀ byte ∈ word, isBlank byte = false) →
      (∀ byte ∈ rest.head?, isBlank byte = true) → LaidOut words rest →
      LaidOut (word :: words) (gap ++ word ++ rest)

variable {line gap word rest : Bytes} {words : List Bytes}

/-- Blanks in front of a line add no word. -/
theorem words_append_of_blank (blank : ∀ byte ∈ gap, isBlank byte = true) (line : Bytes) :
    (gap ++ line).words = line.words := by
  induction gap with
  | nil => rfl
  | cons byte gap ih =>
    obtain ⟨first, others⟩ := List.forall_mem_cons.mp blank
    rw [List.cons_append, words_cons_of_isBlank byte _ first, ih others]

theorem words_of_blank (blank : ∀ byte ∈ gap, isBlank byte = true) : gap.words = [] := by
  have none := words_append_of_blank blank []
  rwa [List.append_nil] at none

/-- A word that ends where a blank or the end of the line comes is the first word. -/
theorem words_append_of_ends (nonempty : word ≠ []) (solid : ∀ byte ∈ word, isBlank byte = false)
    (ends : ∀ byte ∈ rest.head?, isBlank byte = true) :
    (word ++ rest).words = word :: rest.words := by
  cases rest with
  | nil =>
    have noBlank : word.any isBlank = false := by simpa using solid
    rw [List.append_nil, words_of_solid noBlank nonempty]
    rfl
  | cons byte rest =>
    have blank := ends byte rfl
    rw [words_append_cons word byte rest solid nonempty blank,
      words_cons_of_isBlank byte rest blank]

theorem LaidOut.words_eq (laidOut : LaidOut words line) : line.words = words := by
  induction laidOut with
  | blank blank => exact words_of_blank blank
  | word blank nonempty solid ends _ ih =>
    rw [List.append_assoc, words_append_of_blank blank,
      words_append_of_ends nonempty solid ends, ih]

/-! ## Every line lays out its words -/

/-- A blank in front makes the first gap longer. -/
theorem LaidOut.cons_of_blank {byte : UInt8} (laidOut : LaidOut words line)
    (blank : isBlank byte = true) : LaidOut words (byte :: line) := by
  cases laidOut with
  | blank blanks => exact .blank (List.forall_mem_cons.mpr ⟨blank, blanks⟩)
  | word blanks nonempty solid ends later =>
    exact .word (List.forall_mem_cons.mpr ⟨blank, blanks⟩) nonempty solid ends later

/-- Any other byte in front begins a word, or belongs to the first word if that begins the line. -/
theorem LaidOut.cons_of_solid {byte : UInt8} (laidOut : LaidOut words line)
    (solid : isBlank byte = false) : ∃ words', LaidOut words' (byte :: line) := by
  have alone : ∀ other ∈ [byte], isBlank other = false := List.forall_mem_singleton.mpr solid
  have before : ∀ {words : List Bytes} {rest : Bytes}, LaidOut words rest →
      (∀ other ∈ rest.head?, isBlank other = true) → ∃ words', LaidOut words' (byte :: rest) :=
    fun later ends => ⟨_, .word (List.forall_mem_nil _) (List.cons_ne_nil _ _) alone ends later⟩
  cases laidOut with
  | @blank gap blanks =>
    exact before (.blank blanks) fun other first => blanks other (List.mem_of_mem_head? first)
  | @word gap word rest words blanks nonempty inWord ends later =>
    cases gap with
    | nil =>
      have longer : ∀ other ∈ byte :: word, isBlank other = false :=
        List.forall_mem_cons.mpr ⟨solid, inWord⟩
      exact ⟨_, .word (List.forall_mem_nil _) (List.cons_ne_nil byte word) longer ends later⟩
    | cons first gap =>
      refine before (.word blanks nonempty inWord ends later) fun other isFirst => ?_
      cases isFirst
      exact blanks _ List.mem_cons_self

theorem exists_laidOut (line : Bytes) : ∃ words, LaidOut words line := by
  induction line with
  | nil => exact ⟨[], .blank (List.forall_mem_nil _)⟩
  | cons byte line ih =>
    obtain ⟨words, laidOut⟩ := ih
    cases blank : isBlank byte with
    | true => exact ⟨words, laidOut.cons_of_blank blank⟩
    | false => exact laidOut.cons_of_solid blank

/-- **A line has the words that it lays out, and no others.** -/
theorem words_eq_iff : line.words = words ↔ LaidOut words line := by
  constructor
  · rintro rfl
    obtain ⟨words, laidOut⟩ := exists_laidOut line
    rw [laidOut.words_eq]
    exact laidOut
  · exact LaidOut.words_eq

end Bytes

end RowStore
