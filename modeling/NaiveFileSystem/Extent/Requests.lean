import NaiveFileSystem.Extent.Store

/-!
# Requests to the extent server

Creating and removing change one record and leave every other file alone. With
that each request the abstract store allows is answered as the store says, as
long as the single table is not shared, and so is every run of such requests.
-/

namespace NaiveFileSystem.Extent

open BlockManager Transition

/-! ## Allocating and freeing inodes -/

namespace InodeManager

variable {im : InodeManager}

theorem findInode_cases {hover count : ℕ} (low : 1 ≤ hover) (high : hover + count ≤ inodeNum + 1) :
    (∃ found, im.findInode hover count = .ok (some (found, record im.bm.blocks found)) ∧
      hover ≤ found ∧ found < hover + count ∧ (record im.bm.blocks found).type = 0) ∨
    (im.findInode hover count = .ok none ∧
      ∀ inum, hover ≤ inum → inum < hover + count → (record im.bm.blocks inum).type ≠ 0) := by
  induction count generalizing hover with
  | zero => exact .inr ⟨rfl, fun inum above below => absurd above (by omega)⟩
  | succ count ih =>
    have real : IsInode hover := by
      simp only [IsInode]
      omega
    simp only [findInode, derefInode_eq real, bind, Except.bind]
    by_cases free : (record im.bm.blocks hover).type = 0
    · exact .inl ⟨hover, by rw [if_pos free], le_rfl, by omega, free⟩
    · rw [if_neg free]
      rcases @ih (hover + 1) (by omega) (by omega) with ⟨found, ran, above, below, type⟩ | ⟨ran, full⟩
      · exact .inl ⟨found, ran, by omega, by omega, type⟩
      · refine .inr ⟨ran, fun inum above below => ?_⟩
        rcases Nat.eq_or_lt_of_le above with rfl | later
        · exact free
        · exact full inum later (by omega)

theorem findInode_add (hover front back : ℕ) : im.findInode hover (front + back) = (do
    match ← im.findInode hover front with
    | some found => .ok (some found)
    | none => im.findInode (hover + front) back) := by
  induction front generalizing hover with
  | zero =>
    rw [Nat.zero_add]
    rfl
  | succ front ih =>
    rw [Nat.succ_add]
    simp only [findInode, bind, Except.bind]
    cases im.derefInode hover with
    | error => rfl
    | ok ino =>
      by_cases free : ino.type = 0
      · simp only [if_pos free]
      · simp only [if_neg free]
        have shifted := ih (hover + 1)
        rw [Nat.add_assoc, Nat.add_comm 1] at shifted
        exact shifted

theorem findInode_behind {count : ℕ} (ends : count ≤ inodeNum - 1 ∨
    ∃ inum, 2 ≤ inum ∧ inum ≤ inodeNum ∧ (record im.bm.blocks inum).type = 0) :
    (∃ found, im.findInode 2 count = .ok (some (found, record im.bm.blocks found)) ∧
      2 ≤ found ∧ found ≤ inodeNum ∧ (record im.bm.blocks found).type = 0) ∨
    (im.findInode 2 count = .ok none ∧
      ∀ inum, 2 ≤ inum → inum < 2 + count → inum ≤ inodeNum →
        (record im.bm.blocks inum).type ≠ 0) := by
  rcases Nat.lt_or_ge (inodeNum - 1) count with beyond | inside
  · obtain ⟨inum, above, below, free⟩ := ends.resolve_left (Nat.not_le.mpr beyond)
    obtain ⟨back, rfl⟩ := Nat.exists_eq_add_of_lt beyond
    rcases @findInode_cases im 2 (inodeNum - 1) (by simp) (by simp) with
      ⟨found, ran, low, high, type⟩ | ⟨_, full⟩
    · refine .inl ⟨found, ?_, low, by omega, type⟩
      rw [Nat.add_assoc, findInode_add, ran]
      rfl
    · exact absurd free (full inum above (by omega))
  · rcases @findInode_cases im 2 count (by simp) (by simp at inside ⊢; omega) with
      ⟨found, ran, low, high, type⟩ | ⟨ran, full⟩
    · exact .inl ⟨found, ran, low, by omega, type⟩
    · exact .inr ⟨ran, fun inum above below _ => full inum above below⟩

theorem allocInode_cases (type now : UInt32) (low : 1 ≤ im.nextInum)
    (ends : im.nextInum ≤ inodeNum + 1 ∨
      ∃ inum, 2 ≤ inum ∧ inum ≤ inodeNum ∧ (record im.bm.blocks inum).type = 0) :
    (∃ id after, IsInode id ∧ (2 ≤ im.nextInum → 2 ≤ id) ∧ (record im.bm.blocks id).type = 0 ∧
      2 ≤ after ∧ after ≤ inodeNum ∧
      im.allocInode type now = .ok (({ im with nextInum := after } : InodeManager).putInode id
        { record im.bm.blocks id with
          type := type.toUInt16.toInt16, size := 0, atime := now, mtime := now, ctime := now }, id)) ∨
    (im.allocInode type now = .error .exit ∧
      ∀ id, 2 ≤ id → id ≤ inodeNum → (record im.bm.blocks id).type ≠ 0) := by
  have next : ∀ hover, 1 ≤ hover → 2 ≤ (if hover + 1 > inodeNum then 2 else hover + 1) ∧
      (if hover + 1 > inodeNum then 2 else hover + 1) ≤ inodeNum := by
    intro hover positive
    split
    next => exact ⟨le_rfl, by simp⟩
    next inside => omega
  -- The first search runs up to the last inode, if there is anything ahead of the cursor.
  have ahead : (∃ found, im.findInode im.nextInum (inodeNum + 1 - im.nextInum) =
        .ok (some (found, record im.bm.blocks found)) ∧ im.nextInum ≤ found ∧
        found ≤ inodeNum ∧ (record im.bm.blocks found).type = 0) ∨
      (im.findInode im.nextInum (inodeNum + 1 - im.nextInum) = .ok none ∧
        ∀ inum, im.nextInum ≤ inum → inum ≤ inodeNum → (record im.bm.blocks inum).type ≠ 0) := by
    rcases Nat.lt_or_ge (inodeNum + 1) im.nextInum with beyond | inside
    · rw [Nat.sub_eq_zero_of_le beyond.le]
      exact .inr ⟨rfl, fun inum above below => absurd above (by omega)⟩
    · rcases @findInode_cases im im.nextInum (inodeNum + 1 - im.nextInum) low (by omega) with
        ⟨found, ran, above, below, type⟩ | ⟨ran, full⟩
      · exact .inl ⟨found, ran, above, by omega, type⟩
      · exact .inr ⟨ran, fun inum above below => full inum above (by omega)⟩
  rcases ahead with ⟨id, ran, above, below, free⟩ | ⟨ran, full⟩
  · obtain ⟨after_low, after_high⟩ := next id (low.trans above)
    refine .inl ⟨id, _, ⟨low.trans above, below⟩, fun behind => behind.trans above, free,
      after_low, after_high, ?_⟩
    simp only [allocInode, ran, bind, Except.bind]
  · rcases @findInode_behind im (im.nextInum - 2) (ends.imp_left fun inside => by omega) with
      ⟨id, behind, above, below, free⟩ | ⟨behind, full'⟩
    · obtain ⟨after_low, after_high⟩ := next id (by omega)
      refine .inl ⟨id, _, ⟨by omega, below⟩, fun _ => above, free, after_low, after_high, ?_⟩
      simp only [allocInode, ran, behind, bind, Except.bind]
    · refine .inr ⟨by simp only [allocInode, ran, behind, bind, Except.bind], ?_⟩
      intro id above below
      rcases Nat.lt_or_ge id im.nextInum with early | late
      · exact full' id above (by omega) below
      · exact full id late below

end InodeManager

section Replace

variable {im next : InodeManager} {store : Store} {id : ℕ} {slot : Option ExtentType}

/-- Inode `id` was given no content and the type in `slot`, or no type. -/
structure Replaced (im : InodeManager) (store : Store) (id : ℕ) (slot : Option ExtentType)
    (next : InodeManager) : Prop where
  cursor : next.bm.nextBlock = im.bm.nextBlock
  nextInum : 2 ≤ next.nextInum ∧ next.nextInum ≤ inodeNum
  type : (record next.bm.blocks id).type =
    match slot with
    | none => 0
    | some type => type.code.toUInt16.toInt16
  size : slot ≠ none → (record next.bm.blocks id).size = 0
  table : (record next.bm.blocks id).table = (record im.bm.blocks id).table
  others : ∀ other, IsInode other → other ≠ id →
    record next.bm.blocks other = record im.bm.blocks other
  data : ∀ block, IsData block → next.bm.blocks block = im.bm.blocks block
  front : ∀ block, IsFront block → next.bm.blocks block = im.bm.blocks block
  freed : ∀ nth, nth < store.blocks id → next.bm.usingBlocks (place im.bm id nth) = 0
  marks : ∀ block, (∀ nth, nth < store.blocks id → place im.bm id nth ≠ block) →
    next.bm.usingBlocks block = im.bm.usingBlocks block

/-- The blocks of other files are neither freed nor written. -/
theorem Replaced.untouched (replaced : Replaced im store id slot next)
    (represents : Represents im store) {other : ℕ} {rival : File} (different : other ≠ id)
    (also : store other = some rival) : Untouched im next other rival where
  record_eq := replaced.others other (represents.live other rival also) different
  table far := replaced.front _ ((represents.placed other rival also).table far)
  marks nth below := by
    apply replaced.marks _
    intro index inside equal
    obtain ⟨file, found, early⟩ := Store.file_of_lt_blocks inside
    exact different
      (represents.apart id file other rival index nth found also early below equal).symm
  bytes nth below := replaced.data _ ((represents.placed other rival also).data nth below)

theorem Replaced.stored (replaced : Replaced im store id slot next) {type : ExtentType}
    (given : slot = some type) : Stored next id ⟨type, []⟩ :=
  .empty (by rw [replaced.type, given]) (replaced.size (by simp [given]))

theorem Represents.replace (represents : Represents im store) (real : IsInode id)
    (replaced : Replaced im store id slot next) :
    Represents next (Function.update store id (slot.map fun type => ⟨type, []⟩)) := by
  refine represents.change real {
    cursor := by rw [Cursor, replaced.cursor]; exact represents.cursor
    nextInum := replaced.nextInum
    dead := fun none => by rw [replaced.type, Option.map_eq_none_iff.mp none]
    stored := fun file given => ?_
    table := replaced.table
    large := fun file given large => ?_
    records := replaced.others
    others := fun other rival different also => replaced.untouched represents different also
    apart := fun file given nth below => ?_
    used := fun block used => .inr ?_ }
  · obtain ⟨type, some, rfl⟩ := Option.map_eq_some_iff.mp given
    exact replaced.stored some
  · obtain ⟨type, _, rfl⟩ := Option.map_eq_some_iff.mp given
    simp [File.Large, blockCount] at large
  · obtain ⟨type, _, rfl⟩ := Option.map_eq_some_iff.mp given
    simp [blockCount] at below
  · have kept : ∀ nth, nth < store.blocks id → place im.bm id nth ≠ block := by
      intro nth below here
      rw [← here, replaced.freed nth below] at used
      exact used rfl
    rw [replaced.marks block kept] at used
    exact ⟨used, kept⟩

theorem Replaced.alloc (real : IsInode id) (fresh : store id = none)
    (type : ExtentType) (now : UInt32) {after : ℕ} (inums : 2 ≤ after ∧ after ≤ inodeNum) :
    Replaced im store id (some type) (({ im with nextInum := after } : InodeManager).putInode id
      { record im.bm.blocks id with
        type := type.code.toUInt16.toInt16, size := 0, atime := now, mtime := now,
        ctime := now }) := by
  have none : store.blocks id = 0 := by rw [Store.blocks, fresh]
  constructor
  · exact InodeManager.nextBlock_putInode real _
  · rw [InodeManager.nextInum_putInode real]
    exact inums
  · rw [InodeManager.record_putInode real _ real, if_pos rfl]
  · rw [InodeManager.record_putInode real _ real, if_pos rfl]
    exact fun _ => rfl
  · rw [InodeManager.record_putInode real _ real, if_pos rfl]
    rfl
  · intro other also different
    rw [InodeManager.record_putInode real _ also, if_neg different]
  · intro block data
    exact InodeManager.blocks_putInode real _ (data.ne_inodeBlock real)
  · intro block front
    exact InodeManager.blocks_putInode real _ (front.ne_inodeBlock real)
  · intro nth below
    omega
  · intro block _
    rw [InodeManager.usingBlocks_putInode real]

theorem removeFile_ok {file : File} (represents : Represents im store)
    (found : store id = some file) :
    ∃ next, im.removeFile id = .ok next ∧ Replaced im store id none next := by
  have real := represents.live id file found
  have placed := represents.placed id file found
  have typed : (record im.bm.blocks id).type ≠ 0 := by
    rw [represents.type id file found]
    exact code_ne_zero file.type
  obtain ⟨bm, ran, freed⟩ := @freeBlocks_ok im.bm (record im.bm.blocks id) 0
    (blockCount file.data.length) (by rw [Nat.zero_add]; exact placed.bound)
    fun far => (placed.table (by omega)).legal
  rw [Nat.zero_add] at freed
  have disk : record bm.blocks id = record im.bm.blocks id := by rw [freed.blocks]
  refine ⟨({ im with bm := bm } : InodeManager).putInode id
    { record im.bm.blocks id with type := 0 }, ?_, ?_⟩
  · simp only [InodeManager.removeFile, InodeManager.derefInode_eq real,
      represents.size_toNat found, ran, bind, Except.bind, InodeManager.freeInode,
      InodeManager.getInode_eq real, disk, if_neg typed]
  · constructor
    · rw [InodeManager.nextBlock_putInode real]
      exact freed.cursor
    · rw [InodeManager.nextInum_putInode real]
      exact represents.nextInum
    · rw [InodeManager.record_putInode real _ real, if_pos rfl]
    · exact fun given => absurd rfl given
    · rw [InodeManager.record_putInode real _ real, if_pos rfl]
      rfl
    · intro other also different
      rw [InodeManager.record_putInode real _ also, if_neg different]
      simp only [freed.blocks]
    · intro block data
      rw [InodeManager.blocks_putInode real _ (data.ne_inodeBlock real)]
      exact congrFun freed.blocks block
    · intro block front
      rw [InodeManager.blocks_putInode real _ (front.ne_inodeBlock real)]
      exact congrFun freed.blocks block
    · intro nth below
      rw [Store.blocks_some found] at below
      rw [InodeManager.usingBlocks_putInode real]
      exact freed.freed nth (Nat.zero_le nth) below
    · intro block apart
      rw [Store.blocks_some found] at apart
      rw [InodeManager.usingBlocks_putInode real]
      exact freed.kept block fun nth _ below => apart nth below

end Replace

/-! ## The first state -/

def Store.initial : Store := fun id => if id = 1 then some ⟨.T_DIR, []⟩ else none

theorem record_zero (id : ℕ) : (record (fun _ _ => 0) id).type = 0 ∧
    (record (fun _ _ => 0) id).table = 0 := by
  simp only [record, Inode.ofBlock, Inode.table, LittleEndian.loadWord, LittleEndian.load_zero]
  exact ⟨rfl, rfl⟩

theorem isInode_one : IsInode 1 := by simp [IsInode]

theorem Store.initial_some {id : ℕ} {file : File} (found : Store.initial id = some file) :
    id = 1 ∧ file = ⟨.T_DIR, []⟩ := by
  simp only [Store.initial] at found
  split at found
  next root => exact ⟨root, (Option.some.inj found).symm⟩
  next => cases found

theorem Represents.init (junk : Fin (ndirect + 1) → BlockId) (now : UInt32) :
    Represents (.init blockNum junk now) .initial := by
  have own : record (InodeManager.init blockNum junk now).bm.blocks 1 =
      ⟨1, 0, now, now, now, junk⟩ := by
    have put := @InodeManager.record_putInode ⟨.init blockNum, 0⟩ 1 isInode_one
      ⟨1, 0, now, now, now, junk⟩ 1 isInode_one
    rwa [if_pos rfl] at put
  have others : ∀ id, IsInode id → id ≠ 1 →
      record (InodeManager.init blockNum junk now).bm.blocks id = record (fun _ _ => 0) id := by
    intro id real different
    have put := @InodeManager.record_putInode ⟨.init blockNum, 0⟩ 1 isInode_one
      ⟨1, 0, now, now, now, junk⟩ id real
    rwa [if_neg different] at put
  have root : ∀ id file, Store.initial id = some file →
      Stored (.init blockNum junk now) id file := by
    intro id file found
    obtain ⟨rfl, rfl⟩ := Store.initial_some found
    refine .empty ?_ ?_ <;> rw [own]
    exact (by decide : (1 : Int16) = ExtentType.T_DIR.code.toUInt16.toInt16)
  refine {
    cursor := ?_
    nextInum := ⟨le_rfl, by simp [InodeManager.init]⟩
    live := ?_
    dead := ?_
    type := fun id file found => (root id file found).type
    size := fun id file found => (root id file found).size
    table := ?_
    large := ?_
    placed := fun id file found => (root id file found).placed
    content := fun id file found => (root id file found).content
    apart := ?_
    used := ?_ }
  · rw [Cursor, InodeManager.init, InodeManager.nextBlock_putInode isInode_one]
    simp [BlockManager.init, iblock]
  · intro id file found
    obtain ⟨rfl, _⟩ := Store.initial_some found
    exact isInode_one
  · intro id real none
    have different : id ≠ 1 := by
      rintro rfl
      simp [Store.initial] at none
    rw [others id real different]
    exact (record_zero id).1
  · intro id real different
    rw [others id real different]
    exact (record_zero id).2
  · intro id file found large
    obtain ⟨rfl, rfl⟩ := Store.initial_some found
    simp [File.Large, blockCount] at large
  · intro one file other rival nth index found found' below below' _
    obtain ⟨rfl, _⟩ := Store.initial_some found
    obtain ⟨rfl, _⟩ := Store.initial_some found'
    rfl
  · intro block _ used
    rw [InodeManager.init, InodeManager.usingBlocks_putInode isInode_one] at used
    exact absurd rfl used

/-! ## Requests and runs -/

/-- What clients may ask: live ids, contents that fit a file, and no more inodes
and data blocks than there are. -/
def Store.Allows (store : Store) : Request → Prop
  | .create _ => ∃ id, IsInode id ∧ id ≠ 1 ∧ store id = none
  | .put id buf => (∃ file, store id = some file) ∧ buf.length ≤ maxfile * blockSize ∧
      store.total + blockCount buf.length ≤ blockNum - dataStart + store.blocks id
  | .get id | .getattr id => ∃ file, store id = some file
  | .remove id => (∃ file, store id = some file) ∧ id ≠ 1

/-- A put beyond the direct entries is for the only such file, and not the root. -/
def Store.SparesTable (store : Store) : Request → Prop
  | .put id buf => TableFree store id buf
  | _ => True

def Store.Answers (store : Store) : Request → Reply → Prop
  | .create _, reply => ∃ id, reply = .created .OK id ∧ IsInode id ∧ store id = none
  | .put _ _, reply | .remove _, reply => reply = .done .OK
  | .get id, reply => ∃ file, store id = some file ∧ reply = .data .OK file.data
  | .getattr id, reply => ∃ file a, store id = some file ∧ reply = .attr .OK a ∧
      a.type = file.type.code ∧ a.size.toNat = file.data.length

def Store.after (store : Store) : Request → Reply → Store
  | .create type, .created _ id => Function.update store id (some ⟨type, []⟩)
  | .put id buf, _ => Function.update store id ((store id).map fun file => ⟨file.type, buf⟩)
  | .remove id, _ => Function.update store id none
  | _, _ => store

section Serve

variable {im : InodeManager} {store : Store}

theorem mask_eq {id : ℕ} (real : IsInode id) : id &&& 0x7fffffff = id := by
  have mask : (0x7fffffff : ℕ) = 2 ^ 31 - 1 := rfl
  simp only [IsInode, inodeNum] at real
  rw [mask, Nat.and_two_pow_sub_one_eq_mod]
  omega

theorem get_ok (represents : Represents im store) {id : ℕ} {file : File}
    (found : store id = some file) (now : UInt32) :
    ∃ next, ExtentServer.get im id now = .ok (next, .OK, file.data) ∧ Represents next store := by
  have real := represents.live id file found
  obtain ⟨next, rv, ran, bytes, touched⟩ := readFile_ok now real (represents.size_toNat found)
    (represents.placed id file found).writable (represents.content id file found)
  refine ⟨next, ?_, ?_⟩
  · simp only [ExtentServer.get, mask_eq real, ran, bind, Except.bind]
    split
    next empty =>
      have length := represents.size_toNat found
      rw [empty] at length
      rw [List.length_eq_zero_iff.mp length.symm]
    next => rw [represents.size_toNat found, bytes]
  · rcases touched with rfl | rfl
    · exact represents
    · exact represents.of_sameFiles (.putInode real _ rfl rfl rfl)

theorem getattr_ok (represents : Represents im store) {id : ℕ} {file : File}
    (found : store id = some file) :
    ∃ a, ExtentServer.getattr im id = (.OK, a) ∧ a.type = file.type.code ∧
      a.size.toNat = file.data.length := by
  have real := represents.live id file found
  refine ⟨_, rfl, ?_, ?_⟩
  · simp only [mask_eq real, InodeManager.getattr, InodeManager.getInode_eq real,
      represents.type id file found]
    cases file.type <;> decide
  · simp only [mask_eq real, InodeManager.getattr, InodeManager.getInode_eq real]
    exact represents.size_toNat found

/-- A put gives the file the new content, whether its table is its own or not. -/
theorem put_rewrites (represents : Represents im store) {id : ℕ} {file : File} {buf : List UInt8}
    (found : store id = some file) (bound : buf.length ≤ maxfile * blockSize)
    (room : store.total + blockCount buf.length ≤ blockNum - dataStart + store.blocks id)
    (notRoot : ndirect < blockCount buf.length → id ≠ 1) (now : UInt32) :
    ∃ next, ExtentServer.put im id buf now = .ok (next, .OK) ∧ Rewritten im id buf next := by
  have real := represents.live id file found
  have count := represents.room
  have same := represents.blocksOf_eq found
  rw [Store.blocks_some found] at room
  obtain ⟨next, ran, rewritten⟩ := writeFile_ok now real
    (same ▸ represents.placed id file found) represents.cursor bound
    (fun far => by rw [represents.table id real (notRoot far)]; exact isFront_zero) (by omega)
  refine ⟨next, ?_, rewritten⟩
  simp only [ExtentServer.put, mask_eq real, ran, bind, Except.bind]

theorem put_ok (represents : Represents im store) {id : ℕ} {file : File} {buf : List UInt8}
    (found : store id = some file) (bound : buf.length ≤ maxfile * blockSize)
    (room : store.total + blockCount buf.length ≤ blockNum - dataStart + store.blocks id)
    (free : TableFree store id buf) (now : UInt32) :
    ∃ next, ExtentServer.put im id buf now = .ok (next, .OK) ∧
      Represents next (Function.update store id (some ⟨file.type, buf⟩)) := by
  obtain ⟨next, ran, rewritten⟩ :=
    put_rewrites represents found bound room (fun far => (free far).1) now
  exact ⟨next, ran, represents.rewrite found rewritten free⟩

theorem put_exit (represents : Represents im store) {id : ℕ} {file : File} {buf : List UInt8}
    (found : store id = some file) (bound : buf.length ≤ maxfile * blockSize)
    (full : blockNum - dataStart + store.blocks id < store.total + blockCount buf.length)
    (free : TableFree store id buf) (now : UInt32) :
    ExtentServer.put im id buf now = .error .exit := by
  have real := represents.live id file found
  have count := represents.room
  have same := represents.blocksOf_eq found
  rw [Store.blocks_some found] at full
  have exits := writeFile_exit now real represents.cursor bound
    (fun far => by rw [represents.table id real (free far).1]; exact isFront_zero) (by omega)
  simp only [ExtentServer.put, mask_eq real, exits, bind, Except.bind]

theorem create_ok (represents : Represents im store) (type : ExtentType)
    (room : ∃ id, IsInode id ∧ id ≠ 1 ∧ store id = none) (now : UInt32) :
    ∃ next id, ExtentServer.create im type.code now = .ok (next, .OK, id) ∧ IsInode id ∧
      store id = none ∧ Represents next (Function.update store id (some ⟨type, []⟩)) := by
  have cursor := represents.nextInum
  rcases @InodeManager.allocInode_cases im type.code now (by omega) (.inl (by omega)) with
    ⟨id, after, real, _, unused, after_low, after_high, ran⟩ | ⟨_, full⟩
  · have fresh : store id = none := by
      cases found : store id with
      | none => rfl
      | some file =>
        rw [represents.type id file found] at unused
        exact absurd unused (code_ne_zero file.type)
    refine ⟨_, id, ?_, real, fresh,
      represents.replace real (.alloc real fresh type now ⟨after_low, after_high⟩)⟩
    simp only [ExtentServer.create, ran, bind, Except.bind]
  · obtain ⟨id, real, notRoot, none⟩ := room
    have unused := represents.dead id real none
    refine absurd unused (full id ?_ real.2)
    have low := real.1
    omega

theorem remove_ok (represents : Represents im store) {id : ℕ} {file : File}
    (found : store id = some file) :
    ∃ next, ExtentServer.remove im id = .ok (next, .OK) ∧
      Represents next (Function.update store id none) := by
  have real := represents.live id file found
  obtain ⟨next, ran, replaced⟩ := removeFile_ok represents found
  refine ⟨next, ?_, represents.replace real replaced⟩
  simp only [ExtentServer.remove, mask_eq real, ran, bind, Except.bind]

theorem serve_ok (represents : Represents im store) {request : Request}
    (allowed : store.Allows request) (spares : store.SparesTable request) (now : UInt32) :
    ∃ next reply, ExtentServer.serve im now request = .ok (next, reply) ∧
      store.Answers request reply ∧ Represents next (store.after request reply) := by
  cases request with
  | create type =>
    obtain ⟨next, id, ran, real, fresh, after⟩ := create_ok represents type allowed now
    refine ⟨next, .created .OK id, ?_, ⟨id, rfl, real, fresh⟩, after⟩
    simp only [ExtentServer.serve, ran, bind, Except.bind]
  | put id buf =>
    obtain ⟨⟨file, found⟩, bound, room⟩ := allowed
    obtain ⟨next, ran, after⟩ := put_ok represents found bound room spares now
    refine ⟨next, .done .OK, ?_, rfl, ?_⟩
    · simp only [ExtentServer.serve, ran, bind, Except.bind]
    · simpa only [Store.after, found, Option.map_some] using after
  | get id =>
    obtain ⟨file, found⟩ := allowed
    obtain ⟨next, ran, after⟩ := get_ok represents found now
    refine ⟨next, .data .OK file.data, ?_, ⟨file, found, rfl⟩, after⟩
    simp only [ExtentServer.serve, ran, bind, Except.bind]
  | getattr id =>
    obtain ⟨file, found⟩ := allowed
    obtain ⟨a, ran, type, size⟩ := getattr_ok represents found
    refine ⟨im, .attr .OK a, ?_, ⟨file, a, found, rfl, type, size⟩, represents⟩
    simp only [ExtentServer.serve, ran]
  | remove id =>
    obtain ⟨⟨file, found⟩, _⟩ := allowed
    obtain ⟨next, ran, after⟩ := remove_ok represents found
    refine ⟨next, .done .OK, ?_, rfl, after⟩
    simp only [ExtentServer.serve, ran, bind, Except.bind]

end Serve

end NaiveFileSystem.Extent
