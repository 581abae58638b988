import RowStore.Proofs.Bytes.Layout
import RowStore.Proofs.Schema.Words
import RowStore.Proofs.Session.Reports
import RowStore.Proofs.Table.Contents
import RowStore.Proofs.Tree.Guarantees

/-!
# From the lines that insert rows to the lines that print them

The words of a line that inserts a row are recorded if the line reports no fault, and the
record begins anew when the table is cleared (`Session.Recorded`). A line that selects prints
one line for each record, and nothing else (`Session.Prints`). It shows integers without
zeros that could be left out, and texts as they came but for the zero bytes at their end
(`Column.Shows`). How the words were laid out does not matter.

The lines come in the order of the keys that the tree holds. For each line of a session, the
record accounts for the cells of the table, and the cells for what is printed.
-/

set_option autoImplicit false

namespace RowStore

open Store Bytes

/-! ## What is shown for words -/

/-- A word of a column, and what is shown for it. -/
inductive Column.Shows (column : Column) : Bytes → Bytes → Prop where
  | integer {word numeral : Bytes} {number : Int} : column.kind = .integer →
      Decimal.Denotes word number → Decimal.Denotes numeral number →
      Decimal.Canonical numeral → Shows column word numeral
  | text {shown : Bytes} (zeros : Nat) : column.kind = .text → shown.getLast? ≠ some 0 →
      Shows column (shown ++ List.replicate zeros 0) shown

/-- The words of a row, its key, and the line that shows it. -/
def Schema.Shows (schema : Schema) (words : List Bytes) (entry : Key × Bytes) : Prop :=
  ∃ first others, Column.Aligned Column.Shows schema.columns words (first :: others) ∧
    Decimal.Denotes first entry.1.toInt ∧
    entry.2 = text "(" ++ (text ", ").intercalate (first :: others) ++ text ")"

/-- No zero byte is left at the end. -/
theorem Bytes.getLast?_withoutPadding (bytes : Bytes) : bytes.withoutPadding.getLast? ≠ some 0 :=
  withoutPadding_eq_self_iff.mp (List.rdropWhile_idempotent (· == 0) bytes)

/-- A value is shown for every word that spells it. -/
theorem Column.Spells.shows {column : Column} {word : Bytes} {value : Value}
    (spells : column.Spells word value) : column.Shows word value.unpadded.toText := by
  cases spells with
  | @integer number integers denotes =>
    exact .integer integers denotes (Decimal.denotes_ofInt _) (Decimal.canonical_ofInt _)
  | text texts =>
    obtain ⟨zeros, split⟩ := word.exists_eq_withoutPadding_append
    have shows := Column.Shows.text zeros texts word.getLast?_withoutPadding
    rwa [← split] at shows

namespace Table

variable {schema : Schema} {words : List Bytes} {cell : Key × Bytes}

/-- The cell is that of a row of the schema, and the entry has its key and its printed line. -/
def Lists (schema : Schema) (cell entry : Key × Bytes) : Prop :=
  entry.1 = cell.1 ∧ ∃ row, schema.rowOfBytes cell.2 = .ok row ∧ entry.2 = row.toText

/-- The cell of an insertion is listed as the words of the insertion show. -/
theorem Describes.exists_lists (described : Describes schema (schema, words) cell)
    (ordinary : schema.Ordinary) :
    ∃ entry, Lists schema cell entry ∧ schema.Shows words entry := by
  obtain ⟨-, row, parsed, keyed, written⟩ := described
  have reads := (Schema.rowOfBytes_of_rowToBytes ordinary written).2
  refine ⟨(cell.1, Row.toText (row.map Value.unpadded)), ⟨rfl, _, reads, rfl⟩, ?_⟩
  have shown := (Schema.rowOfWords_eq_ok_iff.mp parsed).map fun _ _ _ spells => spells.shows
  obtain ⟨others, rfl⟩ : ∃ others, row = .integer cell.1 :: others := by
    have first := head?_of_keyOf keyed
    cases row with
    | nil => cases first
    | cons value others =>
      cases first
      exact ⟨others, rfl⟩
  refine ⟨_, _, shown, Decimal.denotes_ofInt _, ?_⟩
  rw [Row.toText, List.map_map]
  rfl

/-- What is listed for cells can be told from the rows of the cells. -/
theorem exists_rows_of_lists {cells entries : List (Key × Bytes)}
    (listed : List.Forall₂ (Lists schema) cells entries) :
    entries.map Prod.fst = cells.map Prod.fst ∧
      ∃ rows, rowsOf schema cells = .ok rows ∧ entries.map Prod.snd = rows.map Row.toText := by
  induction listed with
  | nil => exact ⟨rfl, [], rfl, rfl⟩
  | cons first _ ih =>
    obtain ⟨key, row, reads, shown⟩ := first
    obtain ⟨keys, rows, others, lines⟩ := ih
    refine ⟨by rw [List.map_cons, List.map_cons, key, keys], row :: rows, ?_, ?_⟩
    · rw [rowsOf] at others
      rw [rowsOf, List.mapM_cons, reads, others]
      rfl
    · rw [List.map_cons, List.map_cons, shown, lines]

/-- The cells of insertions are listed as the words of the insertions show. -/
theorem exists_lists (ordinary : schema.Ordinary) {accepted : List (List Bytes)}
    {cells : List (Key × Bytes)}
    (described : List.Forall₂ (fun words => Describes schema (schema, words)) accepted cells) :
    ∃ entries, List.Forall₂ (Lists schema) cells entries ∧
      List.Forall₂ schema.Shows accepted entries := by
  induction described with
  | nil => exact ⟨[], .nil, .nil⟩
  | cons first _ ih =>
    obtain ⟨entry, lists, shows⟩ := first.exists_lists ordinary
    obtain ⟨entries, listed, shown⟩ := ih
    exact ⟨entry :: entries, .cons lists listed, .cons shows shown⟩

/-- The rows are selected in the order in which the tree has their keys. -/
theorem Holds.run_select {table : Table} {cells : List (Key × Bytes)}
    (holds : table.Holds cells) (defined : table.schema.hasColumns = true) :
    ∃ (ordered : List (Key × Bytes)) (rows : List Row) (after : Table), ordered.Perm cells ∧
      ordered.Pairwise (fun first second => first.1 < second.1) ∧
      answer table.tree.keys table.store = .ok (ordered.map Prod.fst) ∧
      rowsOf table.schema ordered = .ok rows ∧
      Command.select.run table =
        .ok { output := rows.flatMap fun row => asLine (Row.toText row) } after := by
  obtain ⟨ordered, same, ascending, -, ends⟩ := holds.keeps.rows
  obtain ⟨scanned, same', ascending', -, scan⟩ := holds.tree.scans
  have order : scanned = ordered := by
    refine List.Perm.eq_of_pairwise (fun first second _ _ less greater => ?_) ascending' ascending
      (same'.trans same.symm)
    exact absurd greater (Int32.lt_asymm less)
  have keys : answer table.tree.keys table.store = .ok (ordered.map Prod.fst) := by
    rw [Tree.keys, scan, order]
    exact List.mapM_pure
  cases run : Table.rows table with
  | ok rows after =>
    refine ⟨ordered, rows, after, same, ascending, keys, (ends.of_ok run).2.2, ?_⟩
    show EStateM.bind Table.rows _ table = _
    rw [EStateM.bind, run]
    rfl
  | error fault after => cases defined.symm.trans (ends.of_error run).2.1

end Table

/-! ## The record of a session -/

namespace Session

/-- The record after a line of the given words that reported no fault, with the words of the last
insertion first. -/
def record : List Bytes → List (List Bytes) → List (List Bytes)
  | [], accepted => accepted
  | word :: arguments, accepted =>
    if word = text ".clear" then []
    else if word = text "insert" then arguments :: accepted
    else accepted

/-- A table at a prompt of a session, with the words of the lines that inserted rows and reported no
fault, since the last line that cleared the table and reported none. A table that was saved may be
opened again for another session, if its file has fewer than `2 ^ 32` bytes. -/
inductive Recorded : Table → List (List Bytes) → Prop where
  | opened {limit : UInt32} {opened : Table.Opened} :
      Table.ofContents [] limit = .ok opened → Recorded opened.table []
  | done {table : Table} {accepted : List (List Bytes)} {words : List Bytes} {line : Bytes} :
      Recorded table accepted → LaidOut words line → ¬ReportsFault (react table line) →
      Recorded (react table line).table (record words accepted)
  | reported {table : Table} {accepted : List (List Bytes)} {line : Bytes} :
      Recorded table accepted → ReportsFault (react table line) →
      Recorded (react table line).table accepted
  | reopened {table saved : Table} {accepted : List (List Bytes)} {limit : UInt32}
      {opened : Table.Opened} :
      Recorded table accepted → Table.save table = .ok () saved →
      saved.store.contents.length < UInt32.size → limit ≠ 0 →
      Table.ofContents saved.store.contents limit = .ok opened → Recorded opened.table accepted

/-- The record after a command that was answered. -/
def recordOf (accepted : List (List Bytes)) : Command → List (List Bytes)
  | .clear => []
  | .insert words => words :: accepted
  | _ => accepted

theorem record_cons (word : Bytes) (arguments : List Bytes) (accepted : List (List Bytes)) :
    record (word :: arguments) accepted = recordOf accepted (Command.ofWords word arguments) := by
  rw [record]
  by_cases clears : word = text ".clear"
  · rw [if_pos clears, clears]
    rfl
  by_cases inserts : word = text "insert"
  · rw [if_neg clears, if_pos inserts, inserts]
    rfl
  rw [if_neg clears, if_neg inserts, Command.ofWords, if_neg clears, if_neg inserts]
  split_ifs <;> rfl

/-- What a command does to the cells of a table, it does to the record. -/
theorem describes_done {table after : Table} {cells cells' : List (Key × Bytes)}
    {command : Command} {response : Response}
    (done : Command.Done table cells command response after cells')
    {accepted : List (List Bytes)}
    (described : List.Forall₂ (fun words => Table.Describes table.schema (table.schema, words))
      accepted cells) :
    List.Forall₂ (fun words => Table.Describes after.schema (after.schema, words))
      (recordOf accepted command) cells' := by
  cases done with
  | exit saved => exact saved.schema ▸ described
  | save saved => exact saved.schema ▸ described
  | clear => exact .nil
  | create _ none =>
    subst none
    cases described
    exact .nil
  | insert parsed keyed written schema =>
    rw [schema]
    exact .cons ⟨rfl, _, parsed, keyed, written⟩ described
  | select _ _ unchanged => exact unchanged.schema ▸ described
  | unknown => exact described

/-- **The record accounts for the cells of the table.** -/
theorem Recorded.describes {table : Table} {accepted : List (List Bytes)}
    (recorded : Recorded table accepted) :
    ∃ cells, table.Holds cells ∧ Table.Printable table.schema cells ∧
      List.Forall₂ (fun words => Table.Describes table.schema (table.schema, words))
        accepted cells := by
  induction recorded with
  | opened opens =>
    have positive := Table.limit_ne_zero_of_ofContents opens
    cases (Table.ofContents_empty positive).symm.trans opens
    exact ⟨[], Table.holds_fresh positive, Table.printable_empty, .nil⟩
  | @done table accepted words line _ laidOut silent ih =>
    obtain ⟨cells, holds, printable, described⟩ := ih
    obtain ⟨cells', reacts⟩ := holds.react line
    refine ⟨cells', reacts.holds holds, reacts.printable holds printable, ?_⟩
    have split := laidOut.words_eq
    generalize react table line = reaction at reacts silent ⊢
    cases reacts with
    | blank read =>
      rw [Command.ofLine?, split] at read
      cases words with
      | nil => exact described
      | cons word arguments => cases read
    | answered read _ done =>
      rw [Command.ofLine?, split] at read
      cases words with
      | nil => cases read
      | cons word arguments =>
        cases read
        rw [record_cons]
        exact describes_done done described
    | refused read run refused unchanged =>
      exact absurd (Reacts.reportsFault (.refused read run refused unchanged) printable
        ⟨_, _, read, run⟩) silent
  | @reported table accepted line _ reports ih =>
    obtain ⟨cells, holds, printable, described⟩ := ih
    obtain ⟨cells', reacts⟩ := holds.react line
    obtain ⟨fault, after, -, -, unchanged, reaction⟩ := reacts.of_reportsFault printable reports
    rw [reaction]
    dsimp only
    rw [unchanged.schema]
    exact ⟨cells, unchanged.holds holds, printable, described⟩
  | reopened _ saves small positive opens ih =>
    obtain ⟨cells, holds, printable, described⟩ := ih
    have saved := holds.save.of_ok saves
    obtain ⟨opened, opens', -, same, holds', -⟩ := saved.stored small _ positive
    cases opens.symm.trans opens'
    refine ⟨cells, holds', ?_⟩
    rw [same.schema, saved.schema]
    exact ⟨printable, described⟩

/-! ## Lines that select -/

/-- What a line that selects prints of a table, with the keys of the rows, given the words of the
insertions. There is one line for each row and nothing else, the rows are those whose keys the tree
holds, in ascending order, and the lines show what the words of the insertions say. A session that
reads the line prints this after its prompt, and goes on. -/
structure Prints (table : Table) (accepted : List (List Bytes)) (line : Bytes)
    (shown : List (Key × Bytes)) : Prop where
  out : (react table line).out = shown.flatMap fun entry => asLine entry.2
  oneLine : ∀ entry ∈ shown, entry.2.OneLine
  err : (react table line).err = []
  stored : answer table.tree.keys table.store = .ok (shown.map Prod.fst)
  ascending : (shown.map Prod.fst).Pairwise (· < ·)
  inserted : ∃ entries, List.Forall₂ table.schema.Shows accepted entries ∧ shown.Perm entries
  session : line.OneLine → ∀ rest, (run table (asLine line ++ rest)).out =
    prompt ++ (react table line).out ++ (run (react table line).table rest).out

/-- A session reads the first line of its input, and goes on with the rest. -/
theorem run_asLine_append {table : Table} {line : Bytes}
    (goesOn : (react table line).status = none) (one : line.OneLine) (rest : Bytes) :
    (run table (asLine line ++ rest)).out =
      prompt ++ (react table line).out ++ (run (react table line).table rest).out := by
  rw [run, lines_asLine_append one, overLines_cons goesOn]
  rfl

theorem Recorded.exists_prints {table : Table} {accepted : List (List Bytes)}
    (recorded : Recorded table accepted) (defined : table.schema.hasColumns = true)
    {arguments : List Bytes} {line : Bytes} (laidOut : LaidOut (text "select" :: arguments) line) :
    ∃ shown, Prints table accepted line shown := by
  obtain ⟨cells, holds, printable, described⟩ := recorded.describes
  obtain ⟨entries, listed, shows⟩ := Table.exists_lists holds.ordinary described
  obtain ⟨ordered, rows, after, same, ascending, keys, reads, run⟩ := holds.run_select defined
  obtain ⟨shown, listed, permuted⟩ := List.perm_comp_forall₂ same listed
  obtain ⟨ofKeys, rows', reads', ofRows⟩ := Table.exists_rows_of_lists listed
  cases reads.symm.trans reads'
  have select : Command.ofLine? line = some .select := by
    rw [Command.ofLine?, laidOut.words_eq]
    rfl
  have reacts : react table line =
      { table := after, out := rows.flatMap fun row => asLine (Row.toText row) } := by
    rw [react, select]
    dsimp only
    rw [run]
    rfl
  refine ⟨shown, ?_, ?_, ?_, ?_, ?_, ⟨entries, shows, permuted⟩, ?_⟩
  · have lines := congrArg (List.flatMap asLine) ofRows
    rw [List.flatMap_map, List.flatMap_map] at lines
    rw [reacts]
    exact lines.symm
  · intro entry member
    obtain ⟨row, inRows, line⟩ := List.mem_map.mp (ofRows ▸ List.mem_map_of_mem member)
    obtain ⟨cell, inCells, read⟩ := Table.exists_of_mem_rowsOf reads inRows
    rw [← line]
    exact (printable.rows cell (same.mem_iff.mp inCells) row read).oneLine_toText
  · rw [reacts]
  · rw [ofKeys]
    exact keys
  · rw [ofKeys, List.pairwise_map]
    exact ascending
  · exact run_asLine_append (by rw [reacts])

/-- Whatever its lines are, a session has a record. -/
theorem Recorded.exists_tableAfter {table : Table} {accepted : List (List Bytes)}
    (recorded : Recorded table accepted) (lines : List Bytes) :
    ∃ accepted, Recorded (tableAfter table lines) accepted := by
  induction lines generalizing table accepted with
  | nil => exact ⟨accepted, recorded⟩
  | cons line lines ih =>
    by_cases reports : ReportsFault (react table line)
    · exact ih (recorded.reported reports)
    · obtain ⟨words, laidOut⟩ := exists_laidOut line
      exact ih (recorded.done laidOut reports)

/-- **What is inserted is printed**: a line that selects prints a line for each line that inserted a
row, whatever was between the words of either. -/
theorem prints_insertions :
    (∀ (words : List Bytes) (line : Bytes), LaidOut words line → line.words = words) ∧
    (∀ (table : Table) (accepted : List (List Bytes)), Recorded table accepted →
      ∀ lines, ∃ accepted, Recorded (tableAfter table lines) accepted) ∧
    ∀ (table : Table) (accepted : List (List Bytes)), Recorded table accepted →
      table.schema.hasColumns = true → ∀ (arguments : List Bytes) (line : Bytes),
      LaidOut (text "select" :: arguments) line → ∃ shown, Prints table accepted line shown :=
  ⟨fun _ _ laidOut => laidOut.words_eq, fun _ _ recorded => recorded.exists_tableAfter,
    fun _ _ recorded defined _ _ laidOut => recorded.exists_prints defined laidOut⟩

theorem not_reportsFault_of_nil {reaction : Reaction} (out : reaction.out = [])
    (err : reaction.err = []) : ¬ReportsFault reaction := by
  rintro ⟨printed, member, -⟩
  rw [out, err] at member
  cases member

/-- A table with two rows, which lines of a session inserted. -/
def notedTable : Table :=
  (react (react (react (Table.fresh 1) (text "create int text(3)")).table
    (text "\tinsert  007 ab\x00 ")).table (text "insert -0 x")).table

theorem recorded_noted :
    Recorded notedTable [[text "-0", text "x"], [text "007", text "ab\x00"]] := by
  have created : Recorded (Table.fresh 1) [] :=
    .opened (Table.ofContents_empty (by decide : (1 : UInt32) ≠ 0))
  have defined := created.done (words_eq_iff.mp (rfl : (text "create int text(3)").words = _))
    (not_reportsFault_of_nil rfl rfl)
  have first := defined.done (words_eq_iff.mp (rfl : (text "\tinsert  007 ab\x00 ").words = _))
    (not_reportsFault_of_nil rfl rfl)
  exact first.done (words_eq_iff.mp (rfl : (text "insert -0 x").words = _))
    (not_reportsFault_of_nil rfl rfl)

/-- Leading zeros, a sign of zero, a zero byte at the end and blanks are not printed. -/
theorem prints_noted :
    (∃ shown, Prints notedTable [[text "-0", text "x"], [text "007", text "ab\x00"]]
      (text " select ") shown) ∧
    (react notedTable (text " select ")).out = asLine (text "(0, x)") ++ asLine (text "(7, ab)") :=
  ⟨prints_insertions.2.2 notedTable _ recorded_noted rfl [] _ (words_eq_iff.mp rfl), rfl⟩

end Session

end RowStore
