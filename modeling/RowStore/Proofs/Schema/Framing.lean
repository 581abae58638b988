import RowStore.Proofs.Node.Grammar
import RowStore.Proofs.Schema.RoundTrip

/-!
# Where a column list ends

The bytes of a schema say themselves where they end. What follows them changes nothing
about how they are read, so the zeros behind a schema in the header page stand for no
column, and no proper front of them is taken for a shorter list
(`Schema.delimits_itself`).

What was read stood in front, as for nodes. A front that is read as some schema
therefore starts with the bytes of that schema, and so does the whole list, which is
read as that schema too.

A schema may have columns of integers of another width than four, which the format has
no room for. They are written all the same, and the first of them is what reading
stops at.
-/

set_option autoImplicit false

namespace RowStore

/-! ## Columns -/

namespace Column

variable {column : Column} {total position : Nat}

instance : DecidablePred Ordinary := fun column =>
  inferInstanceAs (Decidable (column.kind = .integer → column.width = integerWidth))

theorem tag_of_ofTag? {tag : UInt8} {kind : Kind} (known : Kind.ofTag? tag = some kind) :
    kind.tag = tag := by
  unfold Kind.ofTag? at known
  split at known
  next isInteger =>
    cases known
    exact isInteger.symm
  next =>
    split at known
    next isText =>
      cases known
      exact isText.symm
    next => cases known

/-- A column that was read stood in front. It is one that the format allows, and the length of its
name is the one that was read. -/
theorem eq_of_read {input rest : Bytes} (found : read total position input = .ok (column, rest)) :
    input = column.toBytes ++ rest ∧ column.Ordinary ∧ column.name.length < UInt32.size := by
  obtain ⟨tag, _, first, found⟩ := Reader.exists_of_bind found
  obtain ⟨width, _, second, found⟩ := Reader.exists_of_bind found
  obtain ⟨length, _, third, found⟩ := Reader.exists_of_bind found
  cases known : Kind.ofTag? tag with
  | none =>
    simp only [known] at found
    cases found
  | some kind =>
    simp only [known] at found
    split at found
    next => cases found
    next allowed =>
      split at found
      next => cases found
      next =>
        obtain ⟨name, _, fourth, done⟩ := Reader.exists_of_bind found
        cases done
        obtain ⟨front, long⟩ := Reader.eq_append_of_block fourth
        refine ⟨?_, ?_, ?_⟩
        · rw [Reader.eq_cons_of_byte first, Reader.sound_word _ _ _ _ second,
            Reader.sound_word _ _ _ _ third, front]
          simp only [toBytes, tag_of_ofTag? known, long, Word.countToBytes_toNat,
            List.cons_append, List.append_assoc]
        · intro isInteger
          by_contra odd
          exact allowed ⟨isInteger, odd⟩
        · rw [long]
          exact length.toNat_lt

/-- Reading stops at a column that the format does not allow, before its name. -/
theorem read_toBytes_of_odd (odd : ¬column.Ordinary) (total position : Nat) (rest : Bytes) :
    read total position (column.toBytes ++ rest) =
      .error (.integerSize position column.width) := by
  have refused : column.kind = .integer ∧ column.width ≠ integerWidth := Classical.not_imp.mp odd
  simp only [toBytes, List.cons_append, List.append_assoc]
  unfold read
  rw [Reader.bind_of (Reader.byte_cons ..), Reader.bind_of (Reader.word_toBytes ..),
    Word.countToBytes, Reader.bind_of (Reader.word_toBytes ..), ofTag?_tag]
  dsimp only
  rw [if_pos refused]
  rfl

end Column

/-! ## Schemas -/

namespace Schema

variable {schema : Schema}

/-- Every schema there is can be put together from its columns, and from no others. -/
theorem ofColumns_eq_ok_iff {columns : List Column} :
    ofColumns columns = .ok schema ↔ schema.columns = columns :=
  pushAll_eq_ok_iff

/-- Columns that were read stood in front, and were added to those that were read before. -/
theorem eq_of_readColumns {total count : Nat} {final : Schema} {input rest : Bytes}
    (found : readColumns total count schema input = .ok (final, rest)) :
    ∃ columns, final.columns = schema.columns ++ columns ∧ columns.length = count ∧
      input = columns.flatMap Column.toBytes ++ rest ∧
      ∀ column ∈ columns, column.Ordinary ∧ column.name.length < UInt32.size := by
  induction count generalizing schema input with
  | zero =>
    cases found
    exact ⟨[], by simp⟩
  | succ count ih =>
    obtain ⟨column, middle, first, onwards⟩ := Reader.exists_of_bind found
    obtain ⟨front, legible⟩ := Column.eq_of_read first
    cases added : schema.push column with
    | error defect =>
      simp only [added] at onwards
      cases onwards
    | ok more =>
      simp only [added] at onwards
      obtain ⟨columns, columnsOf, length, back, legibles⟩ := ih onwards
      refine ⟨column :: columns, ?_, ?_, ?_, ?_⟩
      · rw [columnsOf, columns_of_push added, ← List.append_cons]
      · rw [List.length_cons, length]
      · rw [front, back, List.flatMap_cons, List.append_assoc]
      · exact List.forall_mem_cons.mpr ⟨legible, legibles⟩

/-- **A schema that was read stood in front**, and has only columns that the format allows. Its
counts were read from words. -/
theorem eq_of_ofBytes {input : Bytes} (found : ofBytes input = .ok schema) :
    schema.Ordinary ∧ schema.WordSized ∧ ∃ rest, input = schema.toBytes ++ rest := by
  unfold ofBytes Reader.result at found
  split at found
  next value rest reads =>
    cases found
    obtain ⟨count, middle, first, reads⟩ := Reader.exists_of_bind reads
    split at reads
    next =>
      obtain ⟨columns, columnsOf, length, rfl, legible⟩ := eq_of_readColumns reads
      have isColumns : schema.columns = columns := columnsOf
      subst isColumns
      refine ⟨fun column member => (legible column member).1, ?_, rest, ?_⟩
      · refine ⟨?_, fun column member => (legible column member).2⟩
        rw [length]
        exact count.toNat_lt
      · rw [Reader.sound_word _ _ _ _ first, toBytes, length, Word.countToBytes_toNat,
          List.append_assoc]
    next => cases reads
  next => cases found

/-! ### What is accepted -/

/-- What reading makes of a string of bytes: the schema that stands in front, or nothing. What is
read has only columns that the format allows, and rows that fit a page.

The number of columns and the length of each name are written as words. Of a list of `2 ^ 32`
columns or more, or of a name of as many bytes, the count that is written is the remainder, so such
a schema may stand in front of a string and another one be read. `WordSized` leaves these out, and
nothing else: a schema of ordinary columns that stands in front is read if and only if its counts
fit words (`complete`). A string of fewer than `2 ^ 32` bytes begins with no other schema
(`wordSized`). -/
structure IsParsed (bytes : Bytes) : Prop where
  sound : (∃ defect, ofBytes bytes = .error defect) ∨
    ∃ schema, ofBytes bytes = .ok schema ∧ schema.Ordinary ∧ schema.rowWidth ≤ maxValueLength ∧
      schema.toBytes <+: bytes
  complete : ∀ schema : Schema, schema.Ordinary → schema.toBytes <+: bytes →
    (ofBytes bytes = .ok schema ↔ schema.WordSized)
  wordSized : bytes.length < UInt32.size → ∀ schema : Schema, schema.toBytes <+: bytes →
    schema.WordSized

/-- **Reading accepts exactly the strings that start with a schema**, and finds that schema. -/
theorem isParsed (bytes : Bytes) : IsParsed bytes where
  sound := by
    cases found : ofBytes bytes with
    | error defect => exact .inl ⟨defect, rfl⟩
    | ok schema =>
      obtain ⟨ordinary, -, rest, split⟩ := eq_of_ofBytes found
      exact .inr ⟨schema, rfl, ordinary, schema.totalWidth_le, rest, split.symm⟩
  complete := by
    rintro schema ordinary ⟨rest, rfl⟩
    constructor
    · intro found
      exact (eq_of_ofBytes found).2.1
    · intro sized
      exact ofBytes_append_of_wordSized ordinary sized rest
  wordSized short schema front := wordSized_of_lt (Nat.lt_of_le_of_lt front.length_le short)

/-! ### Where a schema ends -/

/-- A schema that the format does not allow has a first column that is not allowed. -/
theorem exists_first_odd (odd : ¬schema.Ordinary) :
    ∃ front column back, schema.columns = front ++ column :: back ∧
      (∀ other ∈ front, other.Ordinary) ∧ ¬column.Ordinary := by
  obtain ⟨column, member, notOrdinary⟩ : ∃ column ∈ schema.columns, ¬column.Ordinary := by
    simpa only [Schema.Ordinary, not_forall, exists_prop] using odd
  have isFound : (schema.columns.find? fun column => ¬column.Ordinary).isSome :=
    List.find?_isSome.mpr ⟨column, member, decide_eq_true notOrdinary⟩
  obtain ⟨first, found⟩ := Option.isSome_iff_exists.mp isFound
  obtain ⟨firstOdd, front, back, columns, before⟩ := List.find?_eq_some_iff_append.mp found
  refine ⟨front, first, back, columns, fun other earlier => ?_, of_decide_eq_true firstOdd⟩
  have allowed := before other earlier
  simpa only [Bool.not_eq_true', decide_eq_false_iff_not, not_not] using allowed

/-- The columns in front of others make a schema of their own. -/
theorem exists_front {front back : List Column} (columns : schema.columns = front ++ back) :
    ∃ first : Schema, first.columns = front := by
  have fits := schema.totalWidth_le
  rw [columns, Column.totalWidth_append] at fits
  exact ⟨⟨front, Nat.le_trans (Nat.le_add_right ..) fits⟩, rfl⟩

/-- **Reading stops at the first column that the format does not allow.** -/
theorem ofBytes_toBytes_append_of_odd (small : schema.toBytes.length < UInt32.size)
    {front back : List Column} {column : Column}
    (columns : schema.columns = front ++ column :: back)
    (before : ∀ other ∈ front, other.Ordinary) (odd : ¬column.Ordinary) (rest : Bytes) :
    ofBytes (schema.toBytes ++ rest) = .error (.integerSize front.length column.width) := by
  obtain ⟨first, isFront⟩ := exists_front columns
  have reads : ∀ other ∈ front, ∀ position rest', Column.read (schema.toBytes ++ rest).length
      position (other.toBytes ++ rest') = .ok (other, rest') := by
    intro other earlier position rest'
    have member : other ∈ schema.columns := by
      rw [columns]
      exact List.mem_append_left _ earlier
    exact Column.read_toBytes (before other earlier) ((wordSized_of_lt small).2 other member)
      (name_le member rest) position rest'
  have onwards := readColumns_append empty first isFront reads (back.length + 1)
    (column.toBytes ++ (back.flatMap Column.toBytes ++ rest))
  have stops := Column.read_toBytes_of_odd odd (schema.toBytes ++ rest).length
    front.length (back.flatMap Column.toBytes ++ rest)
  have count : schema.columns.length = front.length + (back.length + 1) := by
    rw [columns, List.length_append, List.length_cons]
  have start := read_toBytes_append (wordSized_of_lt small) rest
  rw [count, columns, List.flatMap_append, List.flatMap_cons, List.append_assoc,
    List.append_assoc, onwards, readColumns, isFront] at start
  rw [ofBytes, Reader.result, start]
  simp only [bind, StateT.bind, stops, Except.bind]

/-- A front of the bytes of a schema that is read as some schema has all the bytes. -/
theorem eq_nil_of_ofBytes_front (small : schema.toBytes.length < UInt32.size) {front back : Bytes}
    (cut : schema.toBytes = front ++ back) {other : Schema} (found : ofBytes front = .ok other) :
    back = [] := by
  obtain ⟨otherOrdinary, -, rest, rfl⟩ := eq_of_ofBytes found
  have smaller : other.toBytes.length < UInt32.size := by
    have length := congrArg List.length cut
    simp only [List.length_append] at length
    omega
  -- Both are at the front of the same string, so both are what is read from it.
  have asOther := ofBytes_toBytes_append otherOrdinary smaller (rest ++ back)
  rw [← List.append_assoc, ← cut] at asOther
  by_cases ordinary : schema.Ordinary
  · have asSchema := ofBytes_toBytes_append ordinary small []
    rw [List.append_nil, asOther] at asSchema
    cases asSchema
    have length := congrArg List.length cut
    simp only [List.length_append] at length
    exact List.length_eq_zero_iff.mp (by omega)
  · obtain ⟨before, column, behind, columns, allowed, odd⟩ := exists_first_odd ordinary
    have refused := ofBytes_toBytes_append_of_odd small columns allowed odd []
    rw [List.append_nil, asOther] at refused
    cases refused

/-- **The bytes of a schema say where they end.** Whatever follows them, they are read as the
schema if every column of integers is four bytes wide, and are refused else; and no string that
stops before their end is read as a schema. -/
theorem delimits_itself (schema : Schema) (small : schema.toBytes.length < UInt32.size) :
    (∀ rest, schema.Ordinary → ofBytes (schema.toBytes ++ rest) = .ok schema) ∧
    (∀ rest, ¬schema.Ordinary → ∃ defect, ofBytes (schema.toBytes ++ rest) = .error defect) ∧
    ∀ front back, schema.toBytes = front ++ back → back ≠ [] →
      ∃ defect, ofBytes front = .error defect := by
  refine ⟨fun rest ordinary => ofBytes_toBytes_append ordinary small rest, ?_, ?_⟩
  · intro rest odd
    obtain ⟨before, column, behind, columns, allowed, notAllowed⟩ := exists_first_odd odd
    exact ⟨_, ofBytes_toBytes_append_of_odd small columns allowed notAllowed rest⟩
  · intro front back cut more
    cases found : ofBytes front with
    | error defect => exact ⟨defect, rfl⟩
    | ok other => exact absurd (eq_nil_of_ofBytes_front small cut found) more

/-- A schema with an integer column of seven bytes behind a text column without a name. -/
def wide : Schema where
  columns := [Column.texts [] 3, { name := [107], kind := .integer, width := 7 }]

theorem delimits_itself_wide :
    (∃ defect, ofBytes (wide.toBytes ++ [0, 0]) = .error defect) ∧
    ∃ defect, ofBytes (wide.toBytes.take 13) = .error defect := by
  have small : wide.toBytes.length < UInt32.size := by decide
  have odd : ¬wide.Ordinary := fun ordinary =>
    absurd (ordinary { name := [107], kind := .integer, width := 7 } (by decide) rfl) (by decide)
  obtain ⟨-, refused, truncated⟩ := delimits_itself wide small
  refine ⟨refused [0, 0] odd, truncated _ (wide.toBytes.drop 13) ?_ (by decide)⟩
  rw [List.take_append_drop]

end Schema

end RowStore
