import RowStore.Bytes.Window
import RowStore.Proofs.Node.RoundTrip
import RowStore.Proofs.Outcome
import RowStore.Store.Basic

/-!
# What a page keeps of a node

A node is written to a page exactly if it is not larger than a page. The page gives the
node back, apart from two things that a page has no room for: a reference that is the
word for a reference to nothing, and values without a key. `Node.restored` is the node
without them. It has the same bytes (`Node.toBytes_restored`), and it is in order, so it
is what is read back. A branch that does not have one more child than separators is
written like any other and refused when it is read (`Node.ofPage_of_unpaired`).

A node is written piece by piece to a window over a blank page. Its bytes are never more
than its size, so no piece is cut short once the size has been found to fit
(`Node.writeAll_pieces`).

The main statement is `Node.is_kept`, for every node that has a value for each key.
-/

set_option autoImplicit false

namespace RowStore

/-! ## Pages of a file -/

namespace Store

/-- The page stands in the file at the place of a page number, and no node is in memory there. -/
structure OnDisk (store : Store) (id : PageNumber) (page : Page) : Prop where
  notLoaded : store.inMemory? id = none
  stored : store.disk[id.toNat + 1]? = some page

/-- A page of the file is loaded as what it holds. What is wrong with it is reported for the number
that it was loaded under. -/
theorem OnDisk.answer_load {store : Store} {id : PageNumber} {page : Page}
    (onDisk : store.OnDisk id page) :
    answer (load id) store = (Node.ofPage page).mapError (Fault.corrupt id) := by
  have found : store.peek id = (Node.ofPage page).mapError (Fault.corrupt id) := by
    rw [peek_of_not_inMemory onDisk.notLoaded, inFile, onDisk.stored]
  rw [answer, load, found]
  cases Node.ofPage page <;> rfl

end Store

/-! ## What is lost on the way -/

/-- A reference as it comes back from a page, where the word for a reference to nothing stands for
nothing else. -/
def settledReference (reference : Option PageNumber) : Option PageNumber :=
  reference.filter (· != noReference)

theorem settledReference_ne (reference : Option PageNumber) :
    settledReference reference ≠ some noReference := by
  intro same
  have ordinary := (Option.filter_eq_some_iff.mp same).2
  rw [bne_self_eq_false] at ordinary
  cases ordinary

theorem settledReference_of_ne {reference : Option PageNumber}
    (ordinary : reference ≠ some noReference) : settledReference reference = reference := by
  cases reference with
  | none => rfl
  | some id =>
    have apart : (id != noReference) = true := bne_iff_ne.mpr fun same =>
      ordinary (congrArg some same)
    rw [settledReference, Option.filter_some, if_pos apart]

theorem referenceToWord_settledReference (reference : Option PageNumber) :
    referenceToWord (settledReference reference) = referenceToWord reference := by
  by_cases ordinary : reference = some noReference
  · rw [ordinary]
    rfl
  · rw [settledReference_of_ne ordinary]

namespace Leaf

/-- The leaf without the values that have no key. -/
def trimmed (leaf : Leaf) : Leaf := { leaf with values := leaf.values.take leaf.keys.length }

theorem cells_trimmed (leaf : Leaf) : leaf.trimmed.cells = leaf.cells := by
  have whole : leaf.cells.take leaf.keys.length = leaf.cells := by
    apply List.take_of_length_le
    rw [cells, List.length_zip]
    exact Nat.min_le_left ..
  have cut : (leaf.keys.zip leaf.values).take leaf.keys.length = leaf.trimmed.cells := by
    rw [List.zip_eq_zipWith, List.take_zipWith, List.take_length, ← List.zip_eq_zipWith]
    rfl
  exact cut.symm.trans whole

theorem cellsSize_take_le (count : Nat) (lengths : List Nat) :
    cellsSize (lengths.take count) ≤ cellsSize lengths := by
  induction lengths generalizing count with
  | nil => exact Nat.le_of_eq (congrArg cellsSize List.take_nil)
  | cons length lengths ih =>
    cases count with
    | zero => exact Nat.zero_le _
    | succ count => exact Nat.add_le_add_left (ih count) _

theorem size_trimmed_le (leaf : Leaf) : leaf.trimmed.size ≤ leaf.size := by
  rw [size, size, trimmed, List.map_take]
  exact Nat.add_le_add_left (cellsSize_take_le ..) _

end Leaf

/-! ## What is written -/

/-- What is written of a branch, one after the other. -/
def Branch.pieces (branch : Branch) : List Bytes :=
  [[0], [markToByte branch.rootMark], Word.toBytes (referenceToWord branch.parent),
      Word.countToBytes branch.separators.length] ++ branch.separators.map Word.signedToBytes ++
    Word.countToBytes branch.children.length :: branch.children.map Word.toBytes

/-- What is written of a leaf. -/
def Leaf.pieces (leaf : Leaf) : List Bytes :=
  [[1], [markToByte leaf.rootMark], Word.toBytes (referenceToWord leaf.parent),
      Word.toBytes (referenceToWord leaf.next), Word.countToBytes leaf.keys.length] ++
    leaf.cells.flatMap fun cell =>
      [Word.signedToBytes cell.1, Word.countToBytes cell.2.length, cell.2]

namespace Node

/-- What is written of a node. -/
def pieces : Node → List Bytes
  | branch node => node.pieces
  | leaf node => node.pieces

theorem flatten_pieces (node : Node) : node.pieces.flatten = node.toBytes := by
  cases node with
  | branch node =>
    simp [pieces, Branch.pieces, toBytes, Branch.toBytes, List.flatMap_def]
  | leaf node =>
    have cells : ∀ cells : List (Key × Bytes), (cells.flatMap fun cell =>
        [Word.signedToBytes cell.1, Word.countToBytes cell.2.length, cell.2]).flatten =
          cells.flatMap Leaf.cellToBytes := by
      intro cells
      induction cells with
      | nil => rfl
      | cons cell cells ih =>
        rw [List.flatMap_cons, List.flatten_append, ih, List.flatMap_cons]
        simp [Leaf.cellToBytes]
    simp [pieces, Leaf.pieces, toBytes, Leaf.toBytes, cells]

/-- There is a value for each key of a leaf. Nothing is asked of a branch. -/
def Valued : Node → Prop
  | branch _ => True
  | leaf node => node.keys.length ≤ node.values.length

/-- A branch has one more child than separators. Nothing is asked of a leaf. -/
def Paired : Node → Prop
  | branch node => node.children.length = node.separators.length + 1
  | leaf _ => True

/-- A leaf has no more values than keys. Nothing is asked of a branch. -/
def Exact : Node → Prop
  | branch _ => True
  | leaf node => node.values.length ≤ node.keys.length

/-- The node as it comes back from its page: a reference to the page whose number stands for
nothing is a reference to nothing, and a leaf has no values without a key. -/
def restored : Node → Node
  | branch node => branch { node with parent := settledReference node.parent }
  | leaf node => leaf { node.trimmed with
      parent := settledReference node.parent
      next := settledReference node.next }

theorem wellShaped_restored {node : Node} (valued : node.Valued) (paired : node.Paired) :
    node.restored.WellShaped := by
  cases node with
  | branch node => exact paired
  | leaf node => exact List.length_take_of_le valued

theorem ordinary_restored (node : Node) : node.restored.Ordinary := by
  cases node with
  | branch node => exact settledReference_ne _
  | leaf node => exact ⟨settledReference_ne _, settledReference_ne _⟩

theorem size_restored_le (node : Node) : node.restored.size ≤ node.size := by
  cases node with
  | branch node => exact Nat.le_refl _
  | leaf node => exact node.size_trimmed_le

/-- What is lost is not in the bytes either. -/
theorem toBytes_restored (node : Node) : node.restored.toBytes = node.toBytes := by
  cases node with
  | branch node =>
    simp only [restored, toBytes, Branch.toBytes, referenceToWord_settledReference]
  | leaf node =>
    have cells := node.cells_trimmed
    simp only [Leaf.cells, Leaf.trimmed] at cells
    simp only [restored, toBytes, Leaf.toBytes, Leaf.cells, Leaf.trimmed, cells,
      referenceToWord_settledReference]

/-! ## Pages of nodes -/

section Pages

variable {node : Node} {page : Page}

/-- The bytes of a node fit its page. -/
theorem length_toBytes_le (valued : node.Valued) : node.toBytes.length ≤ node.size := by
  rw [← toBytes_restored]
  cases node with
  | branch node => exact Nat.le_of_eq (Branch.length_toBytes _)
  | leaf node =>
    have shaped : (leaf node).restored.WellShaped := wellShaped_restored valued trivial
    rw [length_toBytes shaped]
    exact size_restored_le _

/-- A node without surplus values takes as many bytes as its size says. -/
theorem length_toBytes_of_exact (valued : node.Valued) (exact : node.Exact) :
    node.toBytes.length = node.size := by
  cases node with
  | branch node => exact node.length_toBytes
  | leaf node => exact node.length_toBytes (Nat.le_antisymm exact valued)

/-- **No piece of a node that fits a page is cut short**, and together they make its page. -/
theorem writeAll_pieces (valued : node.Valued) (small : node.size ≤ Page.size) :
    ∃ after : Window, Window.writeAll { memory := Page.blank.bytes } node.pieces = (true, after) ∧
      after.memory = (Page.ofBytes node.toBytes).bytes ∧ after.written = node.toBytes.length := by
  have fits : node.toBytes.length ≤ Page.size := Nat.le_trans (length_toBytes_le valued) small
  have blank : Page.blank.bytes = List.replicate Page.size 0 :=
    Page.bytes_ofBytes_of_le [] (Nat.zero_le _)
  have writes := Window.writeAll_of_le node.pieces [] Page.blank.bytes (by
    rw [flatten_pieces, Page.length_bytes]
    exact fits)
  refine ⟨_, writes, ?_, ?_⟩
  · rw [flatten_pieces, List.nil_append, blank, List.drop_replicate,
      Page.bytes_ofBytes_of_le _ fits]
  · rw [flatten_pieces, List.length_nil, Nat.zero_add]

/-- A branch whose children do not match its separators is not read. -/
theorem ofPage_of_unpaired (unpaired : ¬node.Paired) (small : node.size ≤ Page.size) :
    ofPage (Page.ofBytes node.toBytes) = .error .childCountMismatch := by
  cases node with
  | leaf node => exact absurd trivial unpaired
  | branch node =>
    have fits : node.toBytes.length ≤ Page.size := by
      rw [Branch.length_toBytes]
      exact small
    rw [ofPage, Reader.result, toBytes, Page.bytes_ofBytes_of_le _ fits]
    simp only [Branch.toBytes, List.cons_append, List.append_assoc]
    rw [read, Reader.bind_of (Reader.byte_cons ..), if_pos rfl]
    have refused := branchBody_of_unmatched (markToByte_ne_zero _) unpaired small
      (node.children.flatMap Word.toBytes ++
        List.replicate (Page.size - node.toBytes.length) 0)
    simp only [bind, StateT.bind, Branch.toBytes, List.cons_append, List.append_assoc] at refused ⊢
    rw [refused]
    rfl

/-- What the page of a node holds. It is what comes of writing the node piece by piece, and it gives
the node back, alone and under every number that it has in a file; but a branch that does not have
one more child than separators is refused, as the page that it is. The bytes of the node are as many
as its size says, and zeros are the rest. -/
structure KeptBy (node : Node) (page : Page) : Prop where
  written : ∃ after : Window,
    Window.writeAll { memory := Page.blank.bytes } node.pieces = (true, after) ∧
      after.memory = page.bytes
  reads : node.Paired → ofPage page = .ok node.restored
  refuses : ¬node.Paired → ofPage page = .error .childCountMismatch
  loads : ∀ (store : Store) (id : PageNumber), store.OnDisk id page → node.Paired →
    answer (Store.load id) store = .ok node.restored
  names : ∀ (store : Store) (id : PageNumber), store.OnDisk id page → ¬node.Paired →
    answer (Store.load id) store = .error (.corrupt id .childCountMismatch)
  fills : node.Exact → node.toBytes.length = node.size ∧
    page.bytes = node.toBytes ++ List.replicate (Page.size - node.size) 0

theorem keptBy (valued : node.Valued) (small : node.size ≤ Page.size) :
    node.KeptBy (Page.ofBytes node.toBytes) := by
  have reads : node.Paired → ofPage (Page.ofBytes node.toBytes) = .ok node.restored := by
    intro paired
    obtain ⟨page, writes, holds⟩ := exists_page (wellShaped_restored valued paired)
      node.ordinary_restored (Nat.le_trans node.size_restored_le small)
    rw [toPage, if_pos (Nat.le_trans node.size_restored_le small), toBytes_restored] at writes
    cases writes
    exact holds
  obtain ⟨window, writes, memory, -⟩ := writeAll_pieces valued small
  refine ⟨⟨window, writes, memory⟩, reads, fun unpaired => ofPage_of_unpaired unpaired small,
    ?_, ?_, fun exact => ?_⟩
  · intro store id onDisk paired
    rw [onDisk.answer_load, reads paired]
    rfl
  · intro store id onDisk unpaired
    rw [onDisk.answer_load, ofPage_of_unpaired unpaired small]
    rfl
  · have length := length_toBytes_of_exact valued exact
    refine ⟨length, ?_⟩
    rw [Page.bytes_ofBytes_of_le _ (Nat.le_trans (length_toBytes_le valued) small), length]

end Pages

/-- **A node is written exactly if it is not larger than a page, and its page gives it back.** -/
theorem is_kept (node : Node) (valued : node.Valued) :
    (∀ shortage, node.toPage = .error shortage ↔
      Page.size < node.size ∧ shortage = .node node.size) ∧
    (node.size ≤ Page.size → ∃ page, node.toPage = .ok page ∧ node.KeptBy page) := by
  constructor
  · intro shortage
    rw [toPage]
    split
    next small =>
      exact iff_of_false (fun written => by cases written) fun large =>
        Nat.not_lt.mpr small large.1
    next large =>
      constructor
      · intro refused
        cases refused
        exact ⟨Nat.lt_of_not_le large, rfl⟩
      · rintro ⟨-, rfl⟩
        rfl
  · intro small
    exact ⟨_, if_pos small, keptBy valued small⟩

/-- A leaf with a value too many, and a reference to the page whose number stands for nothing. -/
def surplusLeaf : Node :=
  leaf { parent := some noReference, next := some 7, keys := [-3], values := [[1, 2], [9]] }

theorem is_kept_surplus : ∃ page, surplusLeaf.toPage = .ok page ∧
    ofPage page = .ok (leaf { next := some 7, keys := [-3], values := [[1, 2]] }) := by
  have valued : surplusLeaf.Valued := Nat.le_succ 1
  have paired : surplusLeaf.Paired := trivial
  obtain ⟨page, writes, kept⟩ := (is_kept surplusLeaf valued).2 (by decide)
  exact ⟨page, writes, kept.reads paired⟩

end Node

end RowStore
