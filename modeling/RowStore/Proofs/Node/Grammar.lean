import RowStore.Proofs.Node.Encoding
import RowStore.Proofs.Store.Reopen

/-!
# The grammar of pages

A page begins with a node if it begins with the bytes of a node that is well-shaped and
fits a page, where the byte of the root mark may be any that says the same
(`Page.BeginsWith`). Reading takes exactly these pages. The bound on counts and the bound
on lengths, which are looked at before anything is read under them, refuse no page that
begins with a node.

That every such page is read is in `Node.read_set_toBytes`. That nothing else is read is
shown here, field by field: what was read stood in front (`Reader.Sound`), with the byte
of the root mark as the only freedom.

A node that was read is in order and fits a page, so it can be written again
(`Page.isRead`), and a flush can only fail over a node that no page holds.
-/

set_option autoImplicit false

namespace RowStore

/-! ## What was read stood in front -/

namespace Reader

variable {fault α β : Type}

/-- What the field found is written as what stood in front. -/
def Sound (field : Reader fault α) (write : α → Bytes) : Prop :=
  ∀ input value rest, field input = .ok (value, rest) → input = write value ++ rest

/-- A field and what comes after it were both there. -/
theorem exists_of_bind {field : Reader fault α} {next : α → Reader fault β} {input : Bytes}
    {result : β × Bytes} (found : (field >>= next) input = .ok result) :
    ∃ value middle, field input = .ok (value, middle) ∧ next value middle = .ok result := by
  simp only [bind, StateT.bind, Except.bind] at found
  cases first : field input with
  | error missing => simp only [first, reduceCtorEq] at found
  | ok pair =>
    rw [first] at found
    exact ⟨pair.1, pair.2, rfl, found⟩

theorem sound_word (missing : fault) : Sound (word missing) Word.toBytes :=
  fun _ _ _ found => eq_toBytes_append_of_word found

theorem sound_signed (missing : fault) : Sound (signed missing) Word.signedToBytes := by
  intro input value rest found
  obtain ⟨raw, middle, first, done⟩ := exists_of_bind found
  cases done
  rw [eq_toBytes_append_of_word first, Word.signedToBytes, UInt32.toUInt32_toInt32]

/-- A list of fields that was read stood in front. -/
theorem Sound.times {field : Reader fault α} {write : α → Bytes} (sound : Sound field write)
    {count : Nat} {input rest : Bytes} {values : List α}
    (found : times field count input = .ok (values, rest)) :
    input = values.flatMap write ++ rest ∧ values.length = count :=
  eq_flatMap_append_of_times sound found

end Reader

/-- A count that was read as a word is written as that word. -/
theorem Word.countToBytes_toNat (word : UInt32) : countToBytes word.toNat = toBytes word := by
  rw [countToBytes, UInt32.ofNat_toNat]

theorem referenceOfWord_ne (word : UInt32) : referenceOfWord word ≠ some noReference := by
  unfold referenceOfWord
  split
  next =>
    intro same
    cases same
  next apart => exact fun same => apart (Option.some.inj same)

namespace Node

theorem eq_of_boundedCount {word : UInt32} {defect : UInt32 → PageDefect} {input rest : Bytes}
    {count : Nat} (found : boundedCount word defect input = .ok (count, rest)) :
    count = word.toNat ∧ rest = input := by
  unfold boundedCount at found
  split at found
  · cases found
    exact ⟨rfl, rfl⟩
  · cases found

/-- A branch that was read stood behind a byte that says how it is marked. -/
theorem eq_of_branchBody {input rest : Bytes} {branch : Branch}
    (found : branchBody input = .ok (branch, rest)) :
    branch.children.length = branch.separators.length + 1 ∧ branch.parent ≠ some noReference ∧
      ∃ mark : UInt8, (mark != 0) = branch.rootMark ∧
        input = mark :: (branch.toBytes.drop 2 ++ rest) := by
  obtain ⟨mark, _, first, found⟩ := Reader.exists_of_bind found
  obtain ⟨parent, _, second, found⟩ := Reader.exists_of_bind found
  obtain ⟨word, _, third, found⟩ := Reader.exists_of_bind found
  obtain ⟨count, _, bounded, found⟩ := Reader.exists_of_bind found
  obtain ⟨separators, _, fourth, found⟩ := Reader.exists_of_bind found
  obtain ⟨childCount, _, fifth, found⟩ := Reader.exists_of_bind found
  split at found
  next matched =>
    obtain ⟨children, _, sixth, done⟩ := Reader.exists_of_bind found
    cases done
    obtain ⟨rfl, rfl⟩ := eq_of_boundedCount bounded
    obtain ⟨front, separatorCount⟩ := (Reader.sound_signed _).times fourth
    obtain ⟨back, length⟩ := (Reader.sound_word _).times sixth
    refine ⟨?_, referenceOfWord_ne _, mark, rfl, ?_⟩
    · rw [length, separatorCount]
    · rw [Reader.eq_cons_of_byte first, Reader.sound_word _ _ _ _ second,
        Reader.sound_word _ _ _ _ third, front, Reader.sound_word _ _ _ _ fifth, back]
      simp only [Branch.toBytes, referenceToWord_referenceOfWord, separatorCount, length,
        ← matched, Word.countToBytes_toNat, List.cons_append, List.append_assoc,
        List.drop_succ_cons, List.drop_zero]
  next => cases found

theorem sound_leafCell : Reader.Sound leafCell Leaf.cellToBytes := by
  intro input cell rest found
  obtain ⟨key, _, first, found⟩ := Reader.exists_of_bind found
  obtain ⟨length, _, second, found⟩ := Reader.exists_of_bind found
  split at found
  next =>
    obtain ⟨value, _, third, done⟩ := Reader.exists_of_bind found
    cases done
    obtain ⟨front, long⟩ := Reader.eq_append_of_block third
    rw [Reader.sound_signed _ _ _ _ first, Reader.sound_word _ _ _ _ second, front,
      Leaf.cellToBytes, long, Word.countToBytes_toNat, List.append_assoc, List.append_assoc]
  next => cases found

/-- A leaf that was read stood behind a byte that says how it is marked. -/
theorem eq_of_leafBody {input rest : Bytes} {leaf : Leaf}
    (found : leafBody input = .ok (leaf, rest)) :
    leaf.values.length = leaf.keys.length ∧
      (leaf.parent ≠ some noReference ∧ leaf.next ≠ some noReference) ∧
      ∃ mark : UInt8, (mark != 0) = leaf.rootMark ∧
        input = mark :: (leaf.toBytes.drop 2 ++ rest) := by
  obtain ⟨mark, _, first, found⟩ := Reader.exists_of_bind found
  obtain ⟨parent, _, second, found⟩ := Reader.exists_of_bind found
  obtain ⟨next, _, third, found⟩ := Reader.exists_of_bind found
  obtain ⟨word, _, fourth, found⟩ := Reader.exists_of_bind found
  obtain ⟨count, _, bounded, found⟩ := Reader.exists_of_bind found
  obtain ⟨cells, _, fifth, done⟩ := Reader.exists_of_bind found
  cases done
  obtain ⟨rfl, rfl⟩ := eq_of_boundedCount bounded
  obtain ⟨front, count⟩ := sound_leafCell.times fifth
  have paired : (cells.map Prod.fst).zip (cells.map Prod.snd) = cells := by
    rw [List.zip_map', List.map_id']
  refine ⟨by rw [List.length_map, List.length_map],
    ⟨referenceOfWord_ne _, referenceOfWord_ne _⟩, mark, rfl, ?_⟩
  rw [Reader.eq_cons_of_byte first, Reader.sound_word _ _ _ _ second,
    Reader.sound_word _ _ _ _ third, Reader.sound_word _ _ _ _ fourth, front]
  simp only [Leaf.toBytes, Leaf.cells, paired, referenceToWord_referenceOfWord, List.length_map,
    count, Word.countToBytes_toNat, List.cons_append, List.append_assoc, List.drop_succ_cons,
    List.drop_zero]

/-- **A node that was read stood in front**, with a byte that says how it is marked. -/
theorem eq_of_read {input rest : Bytes} {node : Node} (found : read input = .ok (node, rest)) :
    node.WellShaped ∧ node.Ordinary ∧
      ∃ mark : UInt8, (mark != 0) = node.rootMark ∧ input = node.toBytes.set 1 mark ++ rest := by
  obtain ⟨tag, _, first, found⟩ := Reader.exists_of_bind found
  split at found
  next isBranch =>
    obtain ⟨branch, _, body, done⟩ := Reader.exists_of_bind found
    cases done
    obtain ⟨shaped, ordinary, mark, marked, front⟩ := eq_of_branchBody body
    refine ⟨shaped, ordinary, mark, marked, ?_⟩
    rw [Reader.eq_cons_of_byte first, front, isBranch]
    rfl
  next =>
    split at found
    next isLeaf =>
      obtain ⟨leaf, _, body, done⟩ := Reader.exists_of_bind found
      cases done
      obtain ⟨shaped, ordinary, mark, marked, front⟩ := eq_of_leafBody body
      refine ⟨shaped, ordinary, mark, marked, ?_⟩
      rw [Reader.eq_cons_of_byte first, front, isLeaf]
      rfl
    next => cases found

end Node

/-! ## Pages that begin with a node -/

/-- The page begins with the bytes of a node that is well-shaped and fits a page. Any byte that
says the same may stand for the root mark. -/
structure Page.BeginsWith (page : Page) (node : Node) : Prop where
  shaped : node.WellShaped
  small : node.size ≤ Page.size
  front : ∃ (mark : UInt8) (rest : Bytes), (mark != 0) = node.rootMark ∧
    page.bytes = node.toBytes.set 1 mark ++ rest

theorem Page.ext_bytes {page other : Page} (same : page.bytes = other.bytes) : page = other := by
  cases page
  cases other
  cases same
  rfl

/-- A node has a tag and a byte for its root mark. -/
theorem Node.two_le_size (node : Node) : 2 ≤ node.size := by
  cases node with
  | branch branch =>
    rw [Node.size, Branch.size, Branch.headerSize]
    omega
  | leaf leaf =>
    rw [Node.size, Leaf.size, Leaf.headerSize]
    omega

section Pages

variable {page : Page} {node : Node}

/-- The page begins with the node as it comes back, too. -/
theorem Page.BeginsWith.restored (begins : page.BeginsWith node) :
    page.BeginsWith node.restored := by
  obtain ⟨shaped, small, mark, rest, marked, front⟩ := begins
  cases node with
  | branch branch =>
    refine ⟨Node.wellShaped_restored trivial shaped, small, mark, rest, marked, ?_⟩
    rw [Node.toBytes_restored]
    exact front
  | leaf leaf =>
    have valued : (Node.leaf leaf).Valued := Nat.le_of_eq shaped.symm
    refine ⟨Node.wellShaped_restored valued trivial,
      Nat.le_trans (Node.size_restored_le _) small, mark, rest, marked, ?_⟩
    rw [Node.toBytes_restored]
    exact front

/-- **Reading a page finds the node that the page begins with, and nothing else.** -/
theorem Node.ofPage_eq_ok_iff : ofPage page = .ok node ↔ page.BeginsWith node ∧ node.Ordinary := by
  rw [ofPage, Reader.result]
  constructor
  · intro found
    split at found
    next value rest reads =>
      cases found
      obtain ⟨shaped, ordinary, mark, marked, front⟩ := eq_of_read reads
      refine ⟨⟨shaped, ?_, mark, rest, marked, front⟩, ordinary⟩
      have length := congrArg List.length front
      rw [page.length_bytes, List.length_append, List.length_set, length_toBytes shaped] at length
      rw [Page.size]
      omega
    next => cases found
  · rintro ⟨⟨shaped, small, mark, rest, marked, front⟩, ordinary⟩
    rw [front, read_set_toBytes marked shaped ordinary small]

theorem Page.BeginsWith.ofPage (begins : page.BeginsWith node) :
    Node.ofPage page = .ok node.restored :=
  Node.ofPage_eq_ok_iff.mpr ⟨begins.restored, node.ordinary_restored⟩

/-- The page of a node is the page that it was read from if that page has nothing else: the byte of
the root mark is one that is written, and zeros are behind the node. -/
theorem Page.BeginsWith.ofBytes_eq_iff (begins : page.BeginsWith node) :
    Page.ofBytes node.toBytes = page ↔
      (page.bytes[1]? = some 0 ∨ page.bytes[1]? = some 1) ∧
        ∀ byte ∈ page.bytes.drop node.size, byte = 0 := by
  obtain ⟨shaped, small, mark, rest, marked, front⟩ := begins
  have length := Node.length_toBytes shaped
  have long : 1 < node.toBytes.length := by
    rw [length]
    exact node.two_le_size
  have second : page.bytes[1]? = some mark := by
    rw [front, List.getElem?_append_left (by rwa [List.length_set]), List.getElem?_set_self long]
  have behind : page.bytes.drop node.size = rest := by
    rw [front, ← length, ← List.length_set (i := 1) (a := mark), List.drop_left]
  have written : node.toBytes[1]? = some (markToByte node.rootMark) := by
    rw [← Node.set_toBytes, List.getElem?_set_self long]
  have remaining : rest.length = Page.size - node.toBytes.length := by
    have whole := congrArg List.length front
    rw [page.length_bytes, List.length_append, List.length_set] at whole
    rw [Page.size]
    omega
  have bytes := Page.bytes_ofBytes_of_le node.toBytes (length ▸ small)
  rw [second, behind, Option.some.injEq, Option.some.injEq]
  constructor
  · intro same
    rw [same, front] at bytes
    obtain ⟨sameFront, sameRest⟩ := List.append_inj bytes List.length_set
    have byte : mark = markToByte node.rootMark := by
      rw [← sameFront, List.getElem?_set_self long] at written
      exact Option.some.inj written
    refine ⟨?_, fun byte member => ?_⟩
    · rw [byte]
      cases node.rootMark <;> decide
    · rw [sameRest] at member
      exact List.eq_of_mem_replicate member
  · rintro ⟨canonical, zeros⟩
    have byte : markToByte node.rootMark = mark := by
      rw [← marked]
      rcases canonical with rfl | rfl <;> rfl
    apply Page.ext_bytes
    rw [bytes, front, ← byte, Node.set_toBytes, ← remaining, ← List.eq_replicate_of_mem zeros]

end Pages

/-! ## Flushing what was read -/

namespace Store

/-- The node is in memory, on a page in use or beyond those. -/
def Keeps (store : Store) (node : Node) : Prop :=
  some node ∈ store.slots.toList ∨ ∃ id : PageNumber, (id, node) ∈ store.strays

/-- Writing a node only stops if it has no page. -/
theorem writeNode_ends (place : Nat) (node : Node) (store : Store) :
    Ends store (writeNode place node) (fun _ after => after.slots = store.slots)
      (fun fault _ => ∃ shortage, node.toPage = .error shortage ∧ fault = .shortage shortage) := by
  unfold Ends writeNode
  cases node.toPage with
  | error shortage => exact ⟨shortage, rfl, rfl⟩
  | ok page => rfl

/-- Writing slots only stops at a node in them that has no page. -/
theorem writeSlots_ends (slots : List (Option Node)) (place : Nat) (store : Store) :
    Ends store (writeSlots place slots) (fun _ _ => True)
      (fun fault _ => ∃ (node : Node) (shortage : Shortage), some node ∈ slots ∧
        node.toPage = .error shortage ∧ fault = .shortage shortage) := by
  induction slots generalizing place store with
  | nil => trivial
  | cons slot slots ih =>
    have later : ∀ after, Ends after (writeSlots (place + 1) slots) (fun _ _ => True)
        (fun fault _ => ∃ (node : Node) (shortage : Shortage), some node ∈ slot :: slots ∧
          node.toPage = .error shortage ∧ fault = .shortage shortage) := by
      intro after
      refine (ih (place + 1) after).weaken (fun _ _ done => done) ?_
      rintro fault _ ⟨node, shortage, member, stops⟩
      exact ⟨node, shortage, List.mem_cons_of_mem slot member, stops⟩
    cases slot with
    | none => exact later store
    | some node =>
      refine .bind ((writeNode_ends place node store).weaken (fun _ after _ => later after) ?_)
      rintro fault _ ⟨shortage, stops⟩
      exact ⟨node, shortage, List.mem_cons_self, stops⟩

/-- Writing strays only stops at a node among them that has no page. -/
theorem writeStrays_ends (strays : List (PageNumber × Node)) (store : Store) :
    Ends store (writeStrays strays) (fun _ after => after.slots = store.slots)
      (fun fault _ => ∃ (stray : PageNumber × Node) (shortage : Shortage), stray ∈ strays ∧
        stray.2.toPage = .error shortage ∧ fault = .shortage shortage) := by
  induction strays generalizing store with
  | nil => rfl
  | cons stray strays ih =>
    refine .bind ((writeNode_ends _ stray.2 store).weaken (fun _ between same => ?_) ?_)
    · refine (ih between).weaken (fun _ _ same' => same'.trans same) ?_
      rintro fault _ ⟨other, shortage, member, stops⟩
      exact ⟨other, shortage, List.mem_cons_of_mem stray member, stops⟩
    · rintro fault _ ⟨shortage, stops⟩
      exact ⟨stray, shortage, List.mem_cons_self, stops⟩

/-- A flush only stops at a node in memory that has no page. -/
theorem flush_ends (header : Page) (store : Store) :
    Ends store (flush header) (fun _ _ => True)
      (fun fault _ => ∃ (node : Node) (shortage : Shortage), store.Keeps node ∧
        node.toPage = .error shortage ∧ fault = .shortage shortage) := by
  have start := writeStrays_ends store.straysBeyond
    { store with disk := writeAt store.disk 0 header }
  show Ends { store with disk := writeAt store.disk 0 header }
    (writeStrays store.straysBeyond >>= _) _ _
  refine .bind (start.weaken (fun _ between same => ?_) ?_)
  · refine .bind (.get (.bind ((writeSlots_ends between.slots.toList 1 between).weaken
      (fun _ _ _ => trivial) ?_)))
    rintro fault _ ⟨node, shortage, member, stops⟩
    exact ⟨node, shortage, .inl (same ▸ member), stops⟩
  · rintro fault _ ⟨⟨id, node⟩, shortage, member, stops⟩
    exact ⟨node, shortage, .inr ⟨id, (List.mem_filter.mp member).1⟩, stops⟩

end Store

/-! ## Reading and writing again -/

/-- How a page is read, whichever page it is. It is read exactly if it begins with a node, and what
is read is a node that the page begins with. Every such node is read that has no reference to the
page whose number stands for nothing, and if these references are taken as such, there is only one.

Under every number that the page has in a file it is loaded as that node, or refused as a damaged
page of that number (`loads`). A node that was read is written again, and its page is the same page
if that has nothing beside the node (`rewrites`). -/
structure Page.IsRead (page : Page) : Prop where
  accepts : (∃ node, Node.ofPage page = .ok node) ↔ ∃ node, page.BeginsWith node
  exact : ∀ node, Node.ofPage page = .ok node ↔ page.BeginsWith node ∧ node.Ordinary
  unique : ∀ node other, page.BeginsWith node → page.BeginsWith other →
    node.restored = other.restored
  loads : ∀ (store : Store) (id : PageNumber), store.OnDisk id page →
    (∀ node, page.BeginsWith node → answer (Store.load id) store = .ok node.restored) ∧
    ((∀ node, ¬page.BeginsWith node) →
      ∃ defect, answer (Store.load id) store = .error (.corrupt id defect))
  rewrites : ∀ node, Node.ofPage page = .ok node → ∃ again, node.toPage = .ok again ∧
    Node.ofPage again = .ok node ∧
    (again = page ↔ (page.bytes[1]? = some 0 ∨ page.bytes[1]? = some 1) ∧
      ∀ byte ∈ page.bytes.drop node.size, byte = 0)

theorem Page.isRead (page : Page) : page.IsRead := by
  have accepts : (∃ node, Node.ofPage page = .ok node) ↔ ∃ node, page.BeginsWith node :=
    ⟨fun ⟨node, found⟩ => ⟨node, (Node.ofPage_eq_ok_iff.mp found).1⟩,
      fun ⟨_, begins⟩ => ⟨_, begins.ofPage⟩⟩
  refine ⟨accepts, fun node => Node.ofPage_eq_ok_iff, ?_, ?_, ?_⟩
  · intro node other begins begins'
    have same := begins.ofPage.symm.trans begins'.ofPage
    exact Except.ok.inj same
  · intro store id onDisk
    rw [onDisk.answer_load]
    constructor
    · intro node begins
      rw [begins.ofPage]
      rfl
    · intro none
      cases found : Node.ofPage page with
      | ok node => exact absurd (Node.ofPage_eq_ok_iff.mp found).1 (none node)
      | error defect => exact ⟨defect, rfl⟩
  · intro node found
    obtain ⟨begins, ordinary⟩ := Node.ofPage_eq_ok_iff.mp found
    obtain ⟨again, written, reads⟩ := Node.exists_page begins.shaped ordinary begins.small
    rw [Node.toPage, if_pos begins.small] at written
    cases written
    exact ⟨_, if_pos begins.small, reads, begins.ofBytes_eq_iff⟩

/-- **Reading takes exactly the pages that begin with a node, and what it takes can be written
again**: a flush only stops at a node in memory that no page holds. -/
theorem Node.read_exactly : (∀ page : Page, page.IsRead) ∧
    ∀ (header : Page) (store after : Store) (fault : Fault),
      Store.flush header store = .error fault after →
      ∃ node, store.Keeps node ∧ (∀ page, ofPage page ≠ .ok node) ∧
        fault = .shortage (.node node.size) := by
  refine ⟨Page.isRead, fun header store after fault fails => ?_⟩
  obtain ⟨node, shortage, found, unwritten, rfl⟩ := (Store.flush_ends header store).of_error fails
  refine ⟨node, found, fun page holds => ?_, ?_⟩
  · obtain ⟨again, written, -⟩ := page.isRead.rewrites node holds
    cases unwritten.symm.trans written
  · unfold toPage at unwritten
    split at unwritten
    next => cases unwritten
    next =>
      cases unwritten
      rfl

/-- A page with an empty leaf, a byte for the root mark that is not written so, and a byte behind
the leaf. -/
def Page.loose : Page :=
  Page.ofBytes ([1, 9] ++ Word.toBytes noReference ++ Word.toBytes 3 ++ Word.toBytes 0 ++ [5])

theorem Node.read_exactly_loose :
    ofPage Page.loose = .ok (leaf { rootMark := true, next := some 3 }) ∧
    ∃ again, toPage (leaf { rootMark := true, next := some 3 }) = .ok again ∧
      ofPage again = .ok (leaf { rootMark := true, next := some 3 }) ∧ again ≠ Page.loose := by
  have reads : ofPage Page.loose = .ok (leaf { rootMark := true, next := some 3 }) := rfl
  obtain ⟨again, written, same, iff⟩ := (read_exactly.1 Page.loose).rewrites _ reads
  refine ⟨reads, again, written, same, fun equal => ?_⟩
  obtain ⟨canonical, -⟩ := iff.mp equal
  rcases canonical with zero | one
  · exact absurd zero (by decide)
  · exact absurd one (by decide)

end RowStore
