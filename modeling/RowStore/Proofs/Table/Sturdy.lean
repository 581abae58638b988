import RowStore.Proofs.Table.Calls
import RowStore.Proofs.Tree.Sturdy

/-!
# Tables in damaged files

The references between the pages of a file may be wrong in any way. If only the keys on each
page do not descend, and the size of the file fits a word, every operation on a table of the
file ends, with an answer or with a fault that tells what is wrong with a page, a value or a
limit, and leaves a table on which the same holds (`Table.withstands_wrong_references`). This is
so for every sequence of operations, also if some of them stop half way, if the file is opened
again in between, and if another page is taken for the root of the tree. The steps of an
insertion count as operations of their own, so what is found in the middle of an insertion is
covered too.

What carries this is that the store of the table stays sturdy (`Table.Sturdy`) in all that the
table does there.
-/

set_option autoImplicit false

namespace RowStore

open Store

theorem Store.isDeclared_of_ofContents {contents : Bytes} {limit : UInt32} {fault : Fault}
    (refused : Store.ofContents contents limit = .error fault) : fault.isDeclared = true := by
  unfold Store.ofContents at refused
  dsimp only at refused
  split at refused
  · cases refused
  · cases refused
    rfl

namespace Table

/-! ## Operations -/

/-- The nodes of the table are sturdy. -/
def Sturdy (table : Table) : Prop := table.store.view.Sturdy

theorem upkeep_sturdy : Upkeep (·.isDeclared) fun store => store.view.Sturdy where
  declared := fun _ declared => declared
  loading := loading_preserves fun id => (loading_still.load id).preserves View.Sturdy
  create := View.preserves_of_safe fun _ => Tree.safe_create
  insert := fun tree key value => View.preserves_of_safe fun _ sturdy =>
    Tree.safe_insert sturdy tree key value
  growLeaf := fun id key value => View.preserves_of_safe fun _ sturdy =>
    Tree.safe_growLeaf sturdy id key value
  divideLeaf := fun id => View.preserves_of_safe fun _ sturdy => Tree.safe_divideLeaf sturdy id
  growBranch := fun id separator child => View.preserves_of_safe fun _ sturdy =>
    Tree.safe_growBranch sturdy id separator child
  divideLarge := fun id => View.preserves_of_safe fun _ sturdy => Tree.safe_divideLarge sturdy id
  growRoot := fun lower separator upper => View.preserves_of_safe fun _ sturdy =>
    Tree.safe_growRoot sturdy lower separator upper

/-- **Whatever is asked of a table, its nodes stay sturdy**, and also if that stops half way. -/
theorem Call.preserves_sturdy (call : Call) : Preserves (·.isDeclared) Sturdy call.perform :=
  call.preserves_perform upkeep_sturdy preserves_flush Store.preserves_clear

/-! ## Opening -/

theorem safe_storedTree {view : View} (sturdy : view.Sturdy) : view.Safe storedTree := by
  refine sturdy.still loading_still.countPages fun count => ?_
  split
  next => exact (Tree.safe_create sturdy).bind fun _ _ sturdy => sturdy.pure _
  next =>
    refine sturdy.still (loading_still.rootAbove 0) fun root => sturdy.load fun node found => ?_
    split
    next => exact sturdy.pure _
    next =>
      have marked := (sturdy.nodes root node found).withRootMark true
      exact (sturdy.replace found marked).bind fun _ _ sturdy => sturdy.pure _

theorem isDeclared_of_storedSchema {store : Store} {fault : Fault}
    (refused : storedSchema store = .error fault) : fault.isDeclared = true := by
  unfold storedSchema at refused
  split at refused
  · cases refused
  · split at refused
    next missing header =>
      cases refused
      unfold Store.header at header
      split at header
      · cases header
      · cases header
        rfl
    next => exact Fault.isDeclared_of_mapError (fun _ => rfl) refused

/-- Opening a file as a table gives a sturdy table, or a fault that tells what is wrong with it. -/
theorem opening {contents : Bytes} (file : OpensSturdy contents)
    (limit : UInt32) :
    (∀ opened, ofContents contents limit = .ok opened → opened.table.Sturdy) ∧
      ∀ fault, ofContents contents limit = .error fault → fault.isDeclared = true := by
  cases opens : Store.ofContents contents limit with
  | error missing =>
    simp only [ofContents, opens, bind, Except.bind]
    refine ⟨fun _ answers => (by cases answers), fun fault refused => ?_⟩
    cases refused
    exact Store.isDeclared_of_ofContents opens
  | ok store =>
    have sturdy := file limit store opens
    cases schema : storedSchema store with
    | error missing =>
      simp only [ofContents, ofStore, opens, schema, bind, Except.bind]
      refine ⟨fun _ answers => (by cases answers), fun fault refused => ?_⟩
      cases refused
      exact isDeclared_of_storedSchema schema
    | ok schema' =>
      have ends := safe_storedTree sturdy store rfl
      cases run : storedTree store with
      | ok found after =>
        simp only [ofContents, ofStore, opens, schema, run, bind, Except.bind]
        refine ⟨fun opened opens => ?_, fun _ refused => (by cases refused)⟩
        cases opens
        exact ends.of_ok run
      | error missing after =>
        simp only [ofContents, ofStore, opens, schema, run, bind, Except.bind]
        refine ⟨fun _ answers => (by cases answers), fun fault refused => ?_⟩
        cases refused
        exact (ends.of_error run).2

/-! ## Sequences of operations -/

/-- The table is one that calls lead to from a file, whether they answer or stop. They start from
the table of the file or from any tree in its store, with any schema, and the file may be opened
again as it is by then. The size of the files fits a word. -/
inductive Reachable : Bytes → Table → Prop where
  | opened {contents : Bytes} {limit : UInt32} {opened : Opened} :
      contents.length < UInt32.size → ofContents contents limit = .ok opened →
      Reachable contents opened.table
  | inside {contents : Bytes} {limit : UInt32} {store : Store} (schema : Schema) (tree : Tree) :
      contents.length < UInt32.size → Store.ofContents contents limit = .ok store →
      Reachable contents { schema, store, tree }
  | called {contents : Bytes} {table : Table} (call : Call) :
      Reachable contents table → Reachable contents (leftBy call.perform table)
  | reopened {contents : Bytes} {table other : Table} :
      Reachable contents table → Reachable table.store.contents other → Reachable contents other

theorem Reachable.small {contents : Bytes} {table : Table}
    (reachable : Reachable contents table) : contents.length < UInt32.size := by
  induction reachable with
  | opened small => exact small
  | inside _ _ small => exact small
  | called _ _ small => exact small
  | reopened _ _ small => exact small

theorem Reachable.sturdy {contents : Bytes} {table : Table} (reachable : Reachable contents table)
    (file : OpensSturdy contents) : table.Sturdy := by
  induction reachable with
  | opened _ opens => exact (opening file _).1 _ opens
  | inside schema tree _ opens => exact file _ _ opens
  | called call _ ih => exact call.preserves_sturdy.leftBy (ih file)
  | reopened _ again ih later => exact later (opensSturdy_of_sturdy (ih file) again.small)

theorem Reachable.after {contents : Bytes} {table : Table} (reachable : Reachable contents table)
    (calls : List Call) : Reachable contents (table.after calls) := by
  induction calls generalizing table with
  | nil => exact reachable
  | cons call calls ih => exact ih (reachable.called call)

/-- What holds of a table wherever references in its file lead. In every node, in memory or still
in the file, the lists match, the keys do not descend, and every position that an operation looks at
is there. Calls only stop with faults about pages, limits, values, rows and columns, and so does
opening the file again. -/
structure Withstands (table : Table) : Prop where
  cached : ∀ (id : PageNumber) (node : Node), table.store.inMemory? id = some node →
    node.WellShaped ∧ node.InOrder ∧ node.InReach
  found : ∀ (id : PageNumber) (node : Node), table.store.peek id = .ok node →
    node.WellShaped ∧ node.InOrder ∧ node.InReach
  calls : ∀ (call : Call) (fault : Fault), answer call.perform table = .error fault →
    fault.isDeclared = true
  reopens : table.store.contents.length < UInt32.size → ∀ (limit : UInt32) (fault : Fault),
    ofContents table.store.contents limit = .error fault → fault.isDeclared = true

theorem Sturdy.withstands {table : Table} (sturdy : table.Sturdy) : table.Withstands := by
  have found : ∀ (id : PageNumber) (node : Node), table.store.peek id = .ok node →
      node.WellShaped ∧ node.InOrder ∧ node.InReach := by
    intro id node present
    have node := View.Sturdy.nodes sturdy id node present
    exact ⟨node.shaped, node.ordered, node.inReach⟩
  refine ⟨fun id node present => found id node (peek_of_inMemory present), found, ?_,
    fun small limit => (opening (opensSturdy_of_sturdy sturdy small) limit).2⟩
  intro call fault stops
  exact ((call.preserves_sturdy table sturdy).of_error (stop_of_answer stops)).2

/-- **Wrong references break nothing and lead in no endless circle.** If the size of a file fits a
word and the keys on none of its pages descend, every table that any calls lead to has nodes whose
lists match, and its calls end in an answer or a fault about what is asked or found. The one walk
that counts no steps, entering a page in the levels above, does not get past one round more than
there are pages left. -/
theorem withstands_wrong_references {contents : Bytes} (small : contents.length < UInt32.size)
    (ordered : ∀ (id : PageNumber) (page : Page) (node : Node), page.StandsIn contents id →
      Node.ofPage page = .ok node → node.InOrder) :
    (∀ (limit : UInt32) (fault : Fault), ofContents contents limit = .error fault →
      fault.isDeclared = true) ∧
    (∀ table, Reachable contents table → table.Withstands) ∧
    ∀ (tree : Tree) (store : Store) (further : PageNumber → Key → PageNumber → StoreM Tree)
      (rounds : Nat), store.limit.toNat - store.pagesInUse < rounds →
      ∀ lower separator upper, tree.enterRounds further rounds lower separator upper store =
        tree.attach lower separator upper store := by
  have file := opensSturdy_of_inOrder small ordered
  refine ⟨fun limit => (opening file limit).2, fun table reachable => ?_, ?_⟩
  · exact (reachable.sturdy file).withstands
  · intro tree store further rounds enough
    exact tree.enterRounds_eq_attach further enough

/-- The pages of a file with an empty leaf, and a branch that the leaf refers to as its parent and
that has it as a child for other keys. -/
def strayPages : Array Page := #[Page.blank,
  Page.ofBytes (Node.leaf { parent := some 1 }).toBytes,
  Page.ofBytes (Node.branch { separators := [0], children := [0, 7] }).toBytes]

/-- The leaf of the file, taken for a tree. -/
def strayLeaf : Table where
  schema := Schema.empty
  store := {
    disk := strayPages
    slots := Array.replicate (strayPages.size - 1) none
    limit := 9
    fileSize := 12288 }
  tree := { root := 0 }

/-- The insertion of a cell that takes about half a leaf. -/
def Call.insertLong (key : Key) : Call := .insertCell key (List.replicate 2000 0)

/-- The third cell makes the leaf be cut, and then there is no way to enter the upper half above.
That stops half way, with a page taken. -/
theorem withstands_stray :
    answer (Call.insertLong 3).perform (strayLeaf.after [.insertLong 1, .insertLong 2]) =
      .error (.corrupt 1 (.strayChild 0)) ∧
    (strayLeaf.after [.insertLong 1, .insertLong 2]).store.pagesInUse = 2 ∧
    (strayLeaf.after [.insertLong 1, .insertLong 2, .insertLong 3]).store.pagesInUse = 3 ∧
    (strayLeaf.after [.insertLong 1, .insertLong 2, .insertLong 3]).Withstands := by
  refine ⟨by decide +kernel, by decide +kernel, by decide +kernel, ?_⟩
  have ordered : ∀ (id : PageNumber) (page : Page) (node : Node),
      page.StandsIn (strayPages.toList.flatMap Page.bytes) id → Node.ofPage page = .ok node →
      node.InOrder := by
    intro id page node stands found
    rw [Page.standsIn_flatMap_iff] at stands
    generalize id.toNat = index at stands
    match index with
    | 0 =>
      cases stands
      have leaf : (Node.leaf { parent := some 1 }).Sturdy := ⟨rfl, List.Pairwise.nil⟩
      exact (Page.sturdy_of_toPage leaf (if_pos (by decide)) node found).ordered
    | 1 =>
      cases stands
      have branch : (Node.branch { separators := [0], children := [0, 7] }).Sturdy :=
        ⟨rfl, List.pairwise_singleton ..⟩
      exact (Page.sturdy_of_toPage branch (if_pos (by decide)) node found).ordered
    | index + 2 => cases stands
  have opens : Store.ofContents (strayPages.toList.flatMap Page.bytes) 9 = .ok strayLeaf.store :=
    Store.ofContents_pages strayPages 9
  have small : (strayPages.toList.flatMap Page.bytes).length < UInt32.size := by
    rw [Page.length_flatMap_bytes]
    decide
  have reachable : Reachable (strayPages.toList.flatMap Page.bytes) strayLeaf :=
    .inside strayLeaf.schema strayLeaf.tree small opens
  exact (withstands_wrong_references small ordered).2.1 _ (reachable.after _)

end Table

end RowStore
