import RowStore.Proofs.Table.Steps
import RowStore.Proofs.Tree.Editing
import RowStore.Proofs.Tree.Still

/-!
# What can be asked of a table

Every call comes down to computations on the store of the table: walks, insertions and their
steps, flushing and clearing. So what these keep of a store is kept by every call, whether it
answers or stops half way (`Table.Call.preserves_perform`). Calls that only look keep the
schema, the root and all nodes of any table, whatever is wrong with it
(`Table.Call.unchanged_of_reads`).
-/

set_option autoImplicit false

namespace RowStore

open Store

namespace Table

/-! ## Calls -/

/-- Insert a value under a key, into the tree of the table. -/
def insertCell (key : Key) (value : Bytes) : TableM Unit := do
  let table ← get
  let tree ← onStore (table.tree.insert key value)
  modify fun table => { table with tree }

/-- Check the tree of the table. -/
def check : TableM Bool := fun table =>
  let report := table.tree.check table.store
  match report.verdict with
  | .ok sound => .ok sound { table with store := report.store }
  | .error fault => .error fault { table with store := report.store }

/-- What can be asked of a table and of its tree. Every step of an insertion can be asked for on its
own, so that what is found in the middle of an insertion is found between calls too. -/
inductive Call where
  | extendSchema (columns : List Column)
  | insert (words : List Bytes)
  | rows
  | save
  | clear
  | insertCell (key : Key) (value : Bytes)
  | cells
  | leafFor (key : Key)
  | firstLeaf
  | height
  | isEmpty
  | rootAbove (id : PageNumber)
  | check
  | create
  | reset (root : PageNumber)
  | growLeaf (id : PageNumber) (key : Key) (value : Bytes)
  | divideLeaf (id : PageNumber)
  | growBranch (id : PageNumber) (separator : Key) (child : PageNumber)
  | divideLarge (id : PageNumber)
  | growRoot (lower : PageNumber) (separator : Key) (upper : PageNumber)
  deriving DecidableEq

namespace Call

/-- A computation on the tree of the table, whatever its answer. -/
def onTree {α : Type} (action : Tree → StoreM α) : TableM Unit := do
  let table ← get
  let _ ← onStore (action table.tree)
  return ()

/-- A computation that gives the table another root. -/
def moveTo (action : StoreM Tree) : TableM Unit := do
  let tree ← onStore action
  modify fun table => { table with tree }

/-- What is done when the table is asked for something, whatever the answer. -/
def perform : Call → TableM Unit
  | extendSchema columns => Table.extendSchema columns
  | insert words => Table.insert words
  | rows => do
    let _ ← Table.rows
    return ()
  | save => Table.save
  | clear => Table.clear
  | insertCell key value => Table.insertCell key value
  | cells => onTree (·.cells)
  | leafFor key => onTree (·.leafFor key)
  | firstLeaf => onTree (·.firstLeaf)
  | height => onTree (·.height)
  | isEmpty => onTree (·.isEmpty)
  | rootAbove id => onTree fun _ => Tree.rootAbove id
  | check => do
    let _ ← Table.check
    return ()
  | create => moveTo Tree.create
  | reset root => modify fun table => { table with tree := { root } }
  | growLeaf id key value => onTree fun _ => Tree.growLeaf id key value
  | divideLeaf id => onTree fun _ => Tree.divideLeaf id
  | growBranch id separator child => onTree fun _ => Tree.growBranch id separator child
  | divideLarge id => onTree fun _ => Tree.divideLarge id
  | growRoot lower separator upper => moveTo (Tree.growRoot lower separator upper)

end Call

/-- The table that calls leave behind, one after the other. -/
def after (table : Table) (calls : List Call) : Table :=
  calls.foldl (fun table call => leftBy call.perform table) table

/-! ## Calls that only look -/

/-- The table has the given schema and tree, and the invariant holds of its store. -/
structure Rests (schema : Schema) (tree : Tree) (invariant : Store → Prop) (table : Table) :
    Prop where
  schema : table.schema = schema
  tree : table.tree = tree
  store : invariant table.store

section Rests

variable {schema : Schema} {tree : Tree} {allowed : Fault → Prop} {invariant : Store → Prop}

theorem Rests.preserves_onStore {α : Type} {action : StoreM α}
    (preserves : Preserves allowed invariant action) :
    Preserves allowed (Rests schema tree invariant) (onStore action) := by
  rintro table ⟨sameSchema, sameTree, holds⟩
  have ends := preserves table.store holds
  unfold Ends onStore
  cases run : action table.store with
  | ok value store => exact ⟨sameSchema, sameTree, ends.of_ok run⟩
  | error fault store =>
    obtain ⟨kept, inside⟩ := ends.of_error run
    exact ⟨⟨sameSchema, sameTree, kept⟩, inside⟩

theorem Rests.preserves_onTree {α : Type} {action : Tree → StoreM α}
    (preserves : ∀ tree, Preserves allowed invariant (action tree)) :
    Preserves allowed (Rests schema tree invariant) (Call.onTree action) :=
  .get fun table _ => .bind (preserves_onStore (preserves table.tree)) fun _ => .pure ()

variable (declared : ∀ fault : Fault, fault.isDeclared = true → allowed fault)
  (loading : Loading fun _ => Preserves allowed invariant)
include loading

include declared in
theorem Rests.preserves_rows : Preserves allowed (Rests schema tree invariant) rows := by
  refine .get fun table _ => ?_
  split
  next =>
    refine preserves_onStore (loading.collect (fun _ _ _ refused => ?_) table.tree)
    exact .throw (declared _ (Fault.isDeclared_of_mapError (fun _ => rfl) refused))
  next => exact .throw (declared _ rfl)

theorem Rests.preserves_check : Preserves allowed (Rests schema tree invariant) check := by
  rintro table ⟨sameSchema, sameTree, holds⟩
  have ends := table.tree.preserves_survey loading { store := table.store } holds
  unfold Ends check Tree.check
  cases run : table.tree.survey { store := table.store } with
  | ok value survey => exact ⟨sameSchema, sameTree, ends.of_ok run⟩
  | error fault survey =>
    obtain ⟨kept, inside⟩ := ends.of_error run
    exact ⟨⟨sameSchema, sameTree, kept⟩, inside⟩

end Rests

namespace Call

/-- The calls that look at a table and give an answer. -/
def reads : Call → Bool
  | rows => true
  | cells => true
  | leafFor _ => true
  | firstLeaf => true
  | height => true
  | isEmpty => true
  | rootAbove _ => true
  | check => true
  | _ => false

/-- A call that only looks keeps what loading a page keeps. -/
theorem preserves_of_reads {call : Call} (looks : call.reads = true) {schema : Schema} {tree : Tree}
    {allowed : Fault → Prop} {invariant : Store → Prop}
    (declared : ∀ fault : Fault, fault.isDeclared = true → allowed fault)
    (loading : Loading fun _ => Preserves allowed invariant) :
    Preserves allowed (Rests schema tree invariant) call.perform := by
  cases call with
  | rows => exact .bind (Rests.preserves_rows declared loading) fun _ => .pure ()
  | cells => exact Rests.preserves_onTree loading.cells
  | leafFor key => exact Rests.preserves_onTree fun tree => loading.leafFor tree key
  | firstLeaf => exact Rests.preserves_onTree loading.firstLeaf
  | height => exact Rests.preserves_onTree loading.height
  | isEmpty => exact Rests.preserves_onTree loading.isEmpty
  | rootAbove id => exact Rests.preserves_onTree fun _ => loading.rootAbove id
  | check => exact .bind (Rests.preserves_check loading) fun _ => .pure ()
  | _ => cases looks

/-- **Calls that only look change nothing**, whatever is wrong with the table. -/
theorem unchanged_of_reads {call : Call} (looks : call.reads = true) (table : Table) :
    table.Unchanged (leftBy call.perform table) := by
  have loading : Loading fun _ => Preserves (·.isDeclared) fun store =>
      store.view = table.store.view :=
    loading_preserves fun id => loading_still.load id table.store.view
  have rests : Rests table.schema table.tree _ _ :=
    (preserves_of_reads looks (fun _ declared => declared) loading).leftBy ⟨rfl, rfl, rfl⟩
  exact ⟨rests.schema, rests.tree, rests.store⟩

end Call

/-! ## Calls that change the table -/

/-- The invariant holds of the store of the table. -/
def Within (invariant : Store → Prop) (table : Table) : Prop := invariant table.store

/-- Whatever the tree of a table does in its store keeps the invariant. -/
structure Upkeep (allowed : Fault → Prop) (invariant : Store → Prop) : Prop where
  declared : ∀ fault : Fault, fault.isDeclared = true → allowed fault
  loading : Loading fun _ => Preserves allowed invariant
  create : Preserves allowed invariant Tree.create
  insert : ∀ tree key value, Preserves allowed invariant (Tree.insert tree key value)
  growLeaf : ∀ id key value, Preserves allowed invariant (Tree.growLeaf id key value)
  divideLeaf : ∀ id, Preserves allowed invariant (Tree.divideLeaf id)
  growBranch : ∀ id separator child,
    Preserves allowed invariant (Tree.growBranch id separator child)
  divideLarge : ∀ id, Preserves allowed invariant (Tree.divideLarge id)
  growRoot : ∀ lower separator upper,
    Preserves allowed invariant (Tree.growRoot lower separator upper)

section Upkeep

variable {allowed : Fault → Prop} {invariant : Store → Prop}

/-- The steps of an insertion are all that a tree does. -/
theorem Upkeep.of_editing (declared : ∀ fault : Fault, fault.isDeclared = true → allowed fault)
    (editing : Editing fun _ => Preserves allowed invariant) : Upkeep allowed invariant where
  declared := declared
  loading := editing.toLoading
  create := editing.create
  insert := fun tree key value => editing.insert tree key value (.throw (declared _ rfl))
  growLeaf := editing.growLeaf
  divideLeaf := editing.divideLeaf
  growBranch := editing.growBranch
  divideLarge := editing.divideLarge
  growRoot := editing.growRoot

/-- Where a computation leaves the schema and the root alone, only the store counts. -/
theorem within_of_rests {α : Type} {action : TableM α}
    (preserves : ∀ schema tree, Preserves allowed (Rests schema tree invariant) action) :
    Preserves allowed (Within invariant) action := by
  intro table holds
  refine (preserves table.schema table.tree table ⟨rfl, rfl, holds⟩).weaken ?_ ?_
  · exact fun _ _ rests => rests.store
  · exact fun _ _ stops => ⟨stops.1.store, stops.2⟩

theorem within_onStore {α : Type} {action : StoreM α}
    (preserves : Preserves allowed invariant action) :
    Preserves allowed (Within invariant) (onStore action) :=
  within_of_rests fun _ _ => Rests.preserves_onStore preserves

theorem within_onTree {α : Type} {action : Tree → StoreM α}
    (preserves : ∀ tree, Preserves allowed invariant (action tree)) :
    Preserves allowed (Within invariant) (Call.onTree action) :=
  within_of_rests fun _ _ => Rests.preserves_onTree preserves

theorem within_moveTo {action : StoreM Tree} (preserves : Preserves allowed invariant action) :
    Preserves allowed (Within invariant) (Call.moveTo action) :=
  .bind (within_onStore preserves) fun _ => .modify fun _ holds => holds

theorem within_lift {α : Type} {result : Except Fault α}
    (inside : ∀ fault, result = .error fault → allowed fault) :
    Preserves allowed (Within invariant) (lift result) := by
  cases result with
  | ok value => exact .pure value
  | error fault => exact .throw (inside fault rfl)

variable (upkeep : Upkeep allowed invariant)
include upkeep

theorem Upkeep.extendSchema (columns : List Column) :
    Preserves allowed (Within invariant) (extendSchema columns) := by
  refine .get fun table _ => ?_
  refine .bind (within_onStore (upkeep.loading.isEmpty table.tree)) fun empty => ?_
  cases empty with
  | false => exact .throw (upkeep.declared _ rfl)
  | true =>
    refine .bind (within_lift fun _ refused =>
      upkeep.declared _ (Fault.isDeclared_of_mapError (fun _ => rfl) refused)) fun schema => ?_
    exact .modify fun _ holds => holds

theorem Upkeep.insertCell (key : Key) (value : Bytes) :
    Preserves allowed (Within invariant) (insertCell key value) :=
  .get fun table _ => .bind (within_onStore (upkeep.insert table.tree key value)) fun _ =>
    .modify fun _ holds => holds

theorem Upkeep.insertRow (words : List Bytes) :
    Preserves allowed (Within invariant) (Table.insert words) := by
  refine .get fun table _ => ?_
  split
  next =>
    refine .bind (within_lift fun _ refused =>
      upkeep.declared _ (Fault.isDeclared_of_mapError (fun _ => rfl) refused)) fun row => ?_
    have keyed : ∀ fault, keyOf row = .error fault → allowed fault := by
      intro fault refused
      rw [eq_keyNotInteger_of_keyOf refused]
      exact upkeep.declared _ rfl
    refine .bind (within_lift keyed) fun key => ?_
    refine .bind (within_lift fun _ refused =>
      upkeep.declared _ (Fault.isDeclared_of_mapError (fun _ => rfl) refused)) fun bytes => ?_
    exact .bind (within_onStore (upkeep.insert table.tree key bytes)) fun tree =>
      .modify fun _ holds => holds
  next => exact .throw (upkeep.declared _ rfl)

variable (flush : ∀ header, Preserves allowed invariant (Store.flush header))
  (clear : Preserves allowed invariant Store.clear)
include flush clear

/-- **What a table keeps of its store in all that it does there is kept by every call**, also by one
that stops half way. -/
theorem Call.preserves_perform (call : Call) :
    Preserves allowed (Within invariant) call.perform := by
  have looking : call.reads = true → Preserves allowed (Within invariant) call.perform :=
    fun looks => within_of_rests fun _ _ => preserves_of_reads looks upkeep.declared upkeep.loading
  cases call with
  | extendSchema columns => exact upkeep.extendSchema columns
  | insert words => exact upkeep.insertRow words
  | save =>
    refine .get fun table _ => ?_
    dsimp only
    split
    next => exact within_onStore (flush _)
    next => exact .throw (upkeep.declared _ rfl)
  | clear =>
    refine .bind (.modify fun _ holds => holds) fun _ => ?_
    refine .bind (within_onStore clear) fun _ => ?_
    exact .bind (within_onStore upkeep.create) fun tree => .modify fun _ holds => holds
  | insertCell key value => exact upkeep.insertCell key value
  | create => exact within_moveTo upkeep.create
  | reset root => exact .modify fun _ holds => holds
  | growLeaf id key value => exact within_onTree fun _ => upkeep.growLeaf id key value
  | divideLeaf id => exact within_onTree fun _ => upkeep.divideLeaf id
  | growBranch id separator child =>
    exact within_onTree fun _ => upkeep.growBranch id separator child
  | divideLarge id => exact within_onTree fun _ => upkeep.divideLarge id
  | growRoot lower separator upper => exact within_moveTo (upkeep.growRoot lower separator upper)
  | _ => exact looking rfl

/-- What every call keeps is kept by calls one after the other. -/
theorem within_after {table : Table} (holds : Within invariant table) (calls : List Call) :
    Within invariant (table.after calls) := by
  induction calls generalizing table with
  | nil => exact holds
  | cons call calls ih => exact ih ((call.preserves_perform upkeep flush clear).leftBy holds)

end Upkeep

/-- A table takes no more pages into use than its limit allows. -/
theorem bounded_perform (most : Nat) (call : Call) :
    Preserves (fun _ => True) (Within (Store.Bounded most)) call.perform :=
  call.preserves_perform (.of_editing (fun _ _ => trivial) (editing_bounded most))
    (flush_preserves (fun _ => trivial) fun _ _ _ bounded => ⟨bounded.pages, bounded.limit⟩)
    (.modify fun _ bounded => ⟨Nat.zero_le _, bounded.limit⟩)

/-! ## Opening -/

/-- Finding the tree of a file takes the steps of an insertion. -/
theorem storedTree_of_editing {holds : (α : Type) → StoreM α → Prop} (editing : Editing holds) :
    holds (Tree × Option PageNumber) storedTree := by
  refine editing.bind editing.countPages fun count => ?_
  split
  next => exact editing.bind editing.create fun tree => editing.pure _
  next =>
    refine editing.bind (editing.rootAbove 0) fun root => ?_
    refine editing.bind (editing.load root) fun node => ?_
    split
    next => exact editing.pure _
    next => exact editing.bind (editing.replace root _) fun _ => editing.pure _

/-- What an insertion keeps is kept when a table is opened. -/
theorem of_ofContents {allowed : Fault → Prop} {invariant : Store → Prop}
    (editing : Editing fun _ => Preserves allowed invariant) {contents : Bytes} {limit : UInt32}
    {opened : Opened} (opens : ofContents contents limit = .ok opened)
    (holds : invariant (ofPages (Page.allOf contents).toArray limit)) :
    invariant opened.table.store := by
  unfold ofContents at opens
  cases stored : Store.ofContents contents limit with
  | error fault =>
    rw [stored] at opens
    cases opens
  | ok store =>
    obtain ⟨-, rfl⟩ := whole_of_ofContents stored
    simp only [stored, ofStore, bind, Except.bind] at opens
    split at opens
    next => cases opens
    next schema =>
      split at opens
      next => cases opens
      next run =>
        cases opens
        exact (storedTree_of_editing editing _ holds).of_ok run

/-- Opening a file neither writes to it nor changes the limit. -/
theorem same_of_ofContents {contents : Bytes} {limit : UInt32} {opened : Opened}
    (opens : ofContents contents limit = .ok opened) :
    opened.table.store.disk = (Page.allOf contents).toArray ∧ opened.table.store.limit = limit := by
  have keeps : Editing fun _ => Preserves (fun _ => True) fun store : Store =>
      store.disk = (Page.allOf contents).toArray ∧ store.limit = limit :=
    editing_preserves (fun store id node same => by simpa using same) fun _ _ _ same => same
  exact of_ofContents keeps opens ⟨rfl, rfl⟩

end Table

end RowStore
