import NaiveFileSystem.Extent.Requests

/-!
# Runs of the extent server

The server and the abstract store run side by side, as long as every put beyond
the direct entries is for the only file there and not for the root. In every
state reached the server answers as the store; a put that finds too few free
blocks ends the process. Two files beyond the direct entries share block 0 as
their table, and the second one overwrites the entries of the first.
-/

namespace NaiveFileSystem.Extent

open BlockManager Transition

def served : System (InodeManager × Store) (Request × UInt32 × Reply) where
  init state := ∃ junk now, state = (.init blockNum junk now, .initial)
  step state label next :=
    state.2.Allows label.1 ∧ state.2.SparesTable label.1 ∧
    ExtentServer.serve state.1 label.2.1 label.1 = .ok (next.1, label.2.2) ∧
    next.2 = state.2.after label.1 label.2.2

theorem represents_of_reachable {state : InodeManager × Store} (reachable : Reachable served state) :
    Represents state.1 state.2 := by
  refine @Reachable.invariant _ _ _ (fun state => Represents state.1 state.2) ?_ ?_ _ reachable
  · rintro _ ⟨junk, now, rfl⟩
    exact .init junk now
  · rintro state ⟨request, now, reply⟩ next represents ⟨allowed, spares, ran, after⟩
    obtain ⟨final, answer, done, _, kept⟩ := serve_ok represents allowed spares now
    cases done.symm.trans ran
    rw [after]
    exact kept

section Steps

variable {im next : InodeManager} {store : Store} {id : ℕ}

theorem served_create (reachable : Reachable served (im, store)) {type : ExtentType} {now : UInt32}
    (free : ∃ id, IsInode id ∧ id ≠ 1 ∧ store id = none)
    (ran : ExtentServer.create im type.code now = .ok (next, .OK, id)) :
    Reachable served (next, Function.update store id (some ⟨type, []⟩)) := by
  have step : served.step (im, store) (.create type, now, .created .OK id)
      (next, Function.update store id (some ⟨type, []⟩)) := by
    refine ⟨free, trivial, ?_, rfl⟩
    simp only [ExtentServer.serve, ran, bind, Except.bind]
  exact reachable.extend step

theorem served_put (reachable : Reachable served (im, store)) {file : File} {buf : List UInt8}
    (found : store id = some file) (bound : buf.length ≤ maxfile * blockSize)
    (room : store.total + blockCount buf.length ≤ blockNum - dataStart + store.blocks id)
    (free : TableFree store id buf) : ∃ next, ExtentServer.put im id buf 0 = .ok (next, .OK) ∧
      Reachable served (next, Function.update store id (some ⟨file.type, buf⟩)) := by
  obtain ⟨next, ran, _⟩ := put_ok (represents_of_reachable reachable) found bound room free 0
  have step : served.step (im, store) (.put id buf, 0, .done .OK)
      (next, Function.update store id (some ⟨file.type, buf⟩)) := by
    refine ⟨⟨⟨file, found⟩, bound, room⟩, free, ?_, ?_⟩
    · simp only [ExtentServer.serve, ran, bind, Except.bind]
    · simp only [Store.after, found, Option.map_some]
  exact ⟨next, ran, reachable.extend step⟩

end Steps

/-! ## Two files -/

theorem initial_reachable : Reachable served (.init blockNum (fun _ => 0) 0, .initial) :=
  ⟨[], .start ⟨_, _, rfl⟩⟩

theorem Store.total_initial : Store.initial.total = 0 := by
  apply Finset.sum_eq_zero
  intro id _
  by_cases root : id = 1 <;> simp [Store.blocks, Store.initial, root, blockCount]

theorem Store.total_update {store : Store} {id : ℕ} (real : IsInode id) (slot : Option File) :
    Store.total (Function.update store id slot) + store.blocks id =
      store.total + Store.blocks (fun _ => slot) id := by
  have member : id ∈ Finset.Icc 1 inodeNum := Finset.mem_Icc.mpr real
  have rest : ∀ other ∈ (Finset.Icc 1 inodeNum).erase id,
      Store.blocks (Function.update store id slot) other = store.blocks other := by
    intro other inside
    simp only [Store.blocks, Function.update_of_ne (Finset.ne_of_mem_erase inside)]
  have own : Store.blocks (Function.update store id slot) id = Store.blocks (fun _ => slot) id := by
    simp only [Store.blocks, Function.update_self]
  have changed := Finset.add_sum_erase _
    (fun other => Store.blocks (Function.update store id slot) other) member
  have before := Finset.add_sum_erase _ (fun other => store.blocks other) member
  have same : ∑ other ∈ (Finset.Icc 1 inodeNum).erase id,
      Store.blocks (Function.update store id slot) other =
      ∑ other ∈ (Finset.Icc 1 inodeNum).erase id, store.blocks other := Finset.sum_congr rfl rest
  rw [same, own] at changed
  simp only [Store.total, ← changed, ← before]
  omega

theorem Store.total_add {store : Store} {id : ℕ} (real : IsInode id) (fresh : store id = none)
    (file : File) : Store.total (Function.update store id (some file)) =
      store.total + blockCount file.data.length := by
  have change := @Store.total_update store id real (some file)
  have none : store.blocks id = 0 := by rw [Store.blocks, fresh]
  have own : Store.blocks (fun _ => some file) id = blockCount file.data.length := rfl
  omega

theorem create_next {im : InodeManager} {store : Store} (represents : Represents im store)
    (type : ExtentType) (fresh : store im.nextInum = none) (room : im.nextInum < inodeNum)
    (now : UInt32) :
    ∃ next, ExtentServer.create im type.code now = .ok (next, .OK, im.nextInum) ∧
      next.nextInum = im.nextInum + 1 ∧
      Represents next (Function.update store im.nextInum (some ⟨type, []⟩)) := by
  have low := represents.nextInum.1
  have real : IsInode im.nextInum := ⟨by omega, room.le⟩
  have unused := represents.dead _ real fresh
  obtain ⟨left, count⟩ : ∃ left, inodeNum + 1 - im.nextInum = left + 1 :=
    ⟨inodeNum - im.nextInum, by omega⟩
  have after : ¬ im.nextInum + 1 > inodeNum := by omega
  refine ⟨_, ?_, InodeManager.nextInum_putInode real _,
    represents.replace real (.alloc real fresh type now ⟨by omega, by omega⟩)⟩
  simp only [ExtentServer.create, InodeManager.allocInode, count, InodeManager.findInode,
    InodeManager.derefInode_eq real, bind, Except.bind, if_pos unused, if_neg after]

/-- One byte more than the direct entries hold. -/
@[irreducible] def beyond (byte : UInt8) : List UInt8 :=
  List.replicate (ndirect * blockSize + 1) byte

theorem length_beyond (byte : UInt8) : (beyond byte).length = 51201 := by
  rw [beyond, List.length_replicate]
  rfl

theorem beyond_getD (byte : UInt8) {position : ℕ} (inside : position < 51201) :
    (beyond byte).getD position 0 = byte := by
  rw [beyond, List.getD_eq_getElem?_getD, List.getElem?_replicate,
    if_pos (show position < ndirect * blockSize + 1 from inside)]
  rfl

theorem blockCount_beyond (byte : UInt8) : blockCount (beyond byte).length = ndirect + 1 := by
  rw [length_beyond]
  rfl

theorem beyond_fits (byte : UInt8) : (beyond byte).length ≤ maxfile * blockSize := by
  rw [length_beyond]
  simp

def twoFiles : Store :=
  Function.update (Function.update Store.initial 2 (some ⟨.T_FILE, []⟩)) 3 (some ⟨.T_FILE, []⟩)

theorem twoFiles_two : twoFiles 2 = some ⟨.T_FILE, []⟩ := by simp [twoFiles]

theorem twoFiles_three : twoFiles 3 = some ⟨.T_FILE, []⟩ := by simp [twoFiles]

theorem initial_two : Store.initial 2 = none := by simp [Store.initial]

theorem initial_three :
    Function.update Store.initial 2 (some ⟨.T_FILE, []⟩) 3 = none := by simp [Store.initial]

theorem total_twoFiles : twoFiles.total = 0 := by
  have first := @Store.total_add Store.initial 2 (by simp [IsInode]) initial_two ⟨.T_FILE, []⟩
  have second := @Store.total_add _ 3 (by simp [IsInode]) initial_three ⟨.T_FILE, []⟩
  rw [first, Store.total_initial] at second
  exact second

theorem twoFiles_small {id : ℕ} {file : File} (found : twoFiles id = some file) : ¬ file.Large := by
  have empty : file.data = [] := by
    by_cases three : id = 3
    · rw [three, twoFiles_three] at found
      rw [← Option.some.inj found]
    by_cases two : id = 2
    · rw [two, twoFiles_two] at found
      rw [← Option.some.inj found]
    rw [twoFiles, Function.update_of_ne three, Function.update_of_ne two] at found
    rw [(Store.initial_some found).2]
  rw [File.Large, empty]
  simp [blockCount]

theorem two_created : ∃ im₁ im₂,
    ExtentServer.create (.init blockNum (fun _ => 0) 0) ExtentType.T_FILE.code 0 =
      .ok (im₁, .OK, 2) ∧
    ExtentServer.create im₁ ExtentType.T_FILE.code 0 = .ok (im₂, .OK, 3) ∧
    Reachable served (im₂, twoFiles) := by
  obtain ⟨im₁, first, cursor₁, represents₁⟩ :=
    create_next (.init (fun _ => 0) 0) .T_FILE initial_two (by simp [InodeManager.init]) 0
  have at₁ : im₁.nextInum = 3 := cursor₁
  obtain ⟨im₂, second, _⟩ := create_next represents₁ .T_FILE
    (by rw [at₁]; exact initial_three) (by rw [at₁]; simp) 0
  rw [at₁] at second
  have made := served_create initial_reachable ⟨2, by simp [IsInode], by decide, initial_two⟩ first
  exact ⟨im₁, im₂, first, second,
    served_create made ⟨3, by simp [IsInode], by decide, initial_three⟩ second⟩

/-- The first of the two files got its content. -/
def oneLarge : Store := Function.update twoFiles 2 (some ⟨.T_FILE, beyond 97⟩)

theorem oneLarge_two : oneLarge 2 = some ⟨.T_FILE, beyond 97⟩ := Function.update_self 2 _ twoFiles

theorem oneLarge_three : oneLarge 3 = some ⟨.T_FILE, []⟩ := by
  rw [oneLarge, Function.update_of_ne (by decide)]
  exact twoFiles_three

theorem total_oneLarge : oneLarge.total = ndirect + 1 := by
  have change := @Store.total_update twoFiles 2 (by simp [IsInode]) (some ⟨.T_FILE, beyond 97⟩)
  have none : twoFiles.blocks 2 = 0 := by
    rw [Store.blocks_some twoFiles_two]
    rfl
  have own : Store.blocks (fun _ => some ⟨.T_FILE, beyond 97⟩) 2 = ndirect + 1 := by
    rw [@Store.blocks_some _ 2 ⟨.T_FILE, beyond 97⟩ rfl, blockCount_beyond]
  rw [total_twoFiles, none, own, Nat.add_zero, Nat.zero_add] at change
  exact change

/-- The other one got a short content. -/
def twoWritten : Store := Function.update oneLarge 3 (some ⟨.T_FILE, [104, 105]⟩)

theorem twoWritten_two : twoWritten 2 = some ⟨.T_FILE, beyond 97⟩ :=
  (Function.update_of_ne (by decide) _ _).trans oneLarge_two

theorem twoWritten_three : twoWritten 3 = some ⟨.T_FILE, [104, 105]⟩ :=
  Function.update_self 3 _ oneLarge

theorem total_twoWritten : twoWritten.total = ndirect + 2 := by
  have change := @Store.total_update oneLarge 3 (by simp [IsInode]) (some ⟨.T_FILE, [104, 105]⟩)
  have none : oneLarge.blocks 3 = 0 := by
    rw [Store.blocks_some oneLarge_three]
    rfl
  have own : Store.blocks (fun _ => some ⟨.T_FILE, [104, 105]⟩) 3 = 1 := rfl
  rw [total_oneLarge, none, own, Nat.add_zero] at change
  exact change

theorem twoWritten_free (byte : UInt8) : TableFree twoWritten 2 (beyond byte) := by
  refine fun _ => ⟨by decide, fun other rival also large => ?_⟩
  by_contra different
  by_cases three : other = 3
  · rw [three, twoWritten_three] at also
    rw [← Option.some.inj also] at large
    simp [File.Large, blockCount] at large
  · rw [twoWritten, Function.update_of_ne three, oneLarge, Function.update_of_ne different] at also
    exact twoFiles_small also large

theorem twoWritten_room (byte : UInt8) : twoWritten.total + blockCount (beyond byte).length ≤
    blockNum - dataStart + twoWritten.blocks 2 := by
  rw [total_twoWritten, blockCount_beyond, Store.blocks_some twoWritten_two, blockCount_beyond]
  simp

theorem twoWritten_reachable : ∃ im, Reachable served (im, twoWritten) := by
  obtain ⟨_, im₂, _, _, created⟩ := two_created
  obtain ⟨im₃, _, written⟩ := served_put created twoFiles_two (beyond_fits 97)
    (by rw [total_twoFiles, blockCount_beyond, Store.blocks_some twoFiles_two]; simp [blockCount])
    (fun _ => ⟨by decide, fun other rival also large => absurd large (twoFiles_small also)⟩)
  change Reachable served (im₃, oneLarge) at written
  obtain ⟨im₄, _, last⟩ := @served_put _ _ 3 written _ [104, 105] oneLarge_three (by simp)
    (by rw [total_oneLarge]; simp [blockCount]; omega) (fun large => by simp [blockCount] at large)
  exact ⟨im₄, last⟩

/-! ## What the server answers -/

/-- In every state reached, the server answers each allowed request as the store
does, whatever was put on other ids before. -/
theorem answers_as_store {im : InodeManager} {store : Store}
    (reachable : Reachable served (im, store)) {request : Request}
    (allowed : store.Allows request) (spares : store.SparesTable request) (now : UInt32) :
    ∃ next reply, ExtentServer.serve im now request = .ok (next, reply) ∧
      store.Answers request reply := by
  obtain ⟨next, reply, ran, answers, _⟩ :=
    serve_ok (represents_of_reachable reachable) allowed spares now
  exact ⟨next, reply, ran, answers⟩

/-- Of two files the first is beyond the direct entries: it is read, and put again. -/
theorem answers_as_store_two_files : ∃ im, Reachable served (im, twoWritten) ∧
    (∃ next, ExtentServer.serve im 0 (.get 2) = .ok (next, .data .OK (beyond 97))) ∧
    (∃ next, ExtentServer.serve im 0 (.get 3) = .ok (next, .data .OK [104, 105])) ∧
    ∃ next, ExtentServer.serve im 0 (.put 2 (beyond 98)) = .ok (next, .done .OK) := by
  obtain ⟨im, reachable⟩ := twoWritten_reachable
  obtain ⟨first, reply, read, file, found, rfl⟩ :=
    answers_as_store reachable (show twoWritten.Allows (.get 2) from ⟨_, twoWritten_two⟩) trivial 0
  cases twoWritten_two.symm.trans found
  obtain ⟨second, reply, short, file, found, rfl⟩ :=
    answers_as_store reachable (show twoWritten.Allows (.get 3) from ⟨_, twoWritten_three⟩) trivial 0
  cases twoWritten_three.symm.trans found
  have allowed : twoWritten.Allows (.put 2 (beyond 98)) :=
    ⟨⟨_, twoWritten_two⟩, beyond_fits 98, twoWritten_room 98⟩
  obtain ⟨third, reply, put, rfl⟩ := answers_as_store reachable allowed (twoWritten_free 98) 0
  exact ⟨im, reachable, ⟨first, read⟩, ⟨second, short⟩, third, put⟩

/-- A put that fits a file either has room and is read back, all other files
being as before, or has none and ends the process. -/
theorem put_or_exit {im : InodeManager} {store : Store} (reachable : Reachable served (im, store))
    {id : ℕ} {file : File} {buf : List UInt8} (found : store id = some file)
    (bound : buf.length ≤ maxfile * blockSize) (free : TableFree store id buf) (now : UInt32) :
    (store.total + blockCount buf.length ≤ blockNum - dataStart + store.blocks id →
      ∃ next, ExtentServer.put im id buf now = .ok (next, .OK) ∧
        (∀ later, ∃ last, ExtentServer.get next id later = .ok (last, .OK, buf)) ∧
        ∀ other rival, other ≠ id → store other = some rival → ∀ later,
          ∃ last, ExtentServer.get next other later = .ok (last, .OK, rival.data)) ∧
    (blockNum - dataStart + store.blocks id < store.total + blockCount buf.length →
      ExtentServer.put im id buf now = .error .exit) := by
  have represents : Represents im store := represents_of_reachable reachable
  refine ⟨fun room => ?_, fun full => put_exit represents found bound full free now⟩
  obtain ⟨next, ran, after⟩ := put_ok represents found bound room free now
  refine ⟨next, ran, fun later => ?_, fun other rival different also later => ?_⟩
  · obtain ⟨last, read, _⟩ := get_ok after (Function.update_self id _ store) later
    exact ⟨last, read⟩
  · obtain ⟨last, read, _⟩ := get_ok after
      ((Function.update_of_ne different _ store).trans also) later
    exact ⟨last, read⟩

theorem put_or_exit_two_files : ∃ im next, Reachable served (im, twoWritten) ∧
    ExtentServer.put im 2 (beyond 98) 0 = .ok (next, .OK) ∧
    (∃ last, ExtentServer.get next 2 0 = .ok (last, .OK, beyond 98)) ∧
    ∃ last, ExtentServer.get next 3 0 = .ok (last, .OK, [104, 105]) := by
  obtain ⟨im, reachable⟩ := twoWritten_reachable
  obtain ⟨next, ran, read, others⟩ := (put_or_exit reachable twoWritten_two (beyond_fits 98)
    (twoWritten_free 98) 0).1 (twoWritten_room 98)
  exact ⟨im, next, reachable, ran, read 0, others 3 _ (by decide) twoWritten_three 0⟩

/-! ## Filling the disk -/

@[irreducible] def full : List UInt8 := List.replicate (ndirect * blockSize) 120

theorem length_full : full.length = 51200 := by
  rw [full, List.length_replicate]
  rfl

theorem blockCount_full : blockCount full.length = ndirect := by
  rw [length_full]
  rfl

structure Filled (count : ℕ) (im : InodeManager) (store : Store) : Prop where
  reachable : Reachable served (im, store)
  total : store.total = ndirect * count
  files : ((Finset.Icc 2 inodeNum).filter fun id => (store id).isSome).card ≤ count

theorem Filled.create {count : ℕ} {im : InodeManager} {store : Store} (filled : Filled count im store)
    (room : count + 1 < inodeNum) : ∃ next id, Reachable served
      (next, Function.update store id (some ⟨.T_FILE, []⟩)) ∧ IsInode id ∧ store id = none := by
  have free : ∃ id, IsInode id ∧ id ≠ 1 ∧ store id = none := by
    by_contra taken
    push Not at taken
    have all : (Finset.Icc 2 inodeNum).filter (fun id => (store id).isSome) =
        Finset.Icc 2 inodeNum := by
      apply Finset.filter_true_of_mem
      intro id member
      have bounds := Finset.mem_Icc.mp member
      exact Option.isSome_iff_ne_none.mpr (taken id ⟨by omega, bounds.2⟩ (by omega))
    have files := filled.files
    rw [all, Nat.card_Icc] at files
    omega
  have represents : Represents im store := represents_of_reachable filled.reachable
  obtain ⟨next, id, ran, real, fresh, _⟩ := create_ok represents .T_FILE free 0
  exact ⟨next, id, served_create filled.reachable free ran, real, fresh⟩

theorem Filled.put {count : ℕ} {im next : InodeManager} {store : Store} {id : ℕ}
    (filled : Filled count im store) (real : IsInode id) (fresh : store id = none)
    (created : Reachable served (next, Function.update store id (some ⟨.T_FILE, []⟩)))
    (room : ndirect * (count + 1) ≤ blockNum - dataStart) :
    ∃ last, Filled (count + 1) last (Function.update store id (some ⟨.T_FILE, full⟩)) := by
  have empty := Store.total_add real fresh ⟨.T_FILE, []⟩
  have grown := Store.total_add real fresh ⟨.T_FILE, full⟩
  have small : TableFree (Function.update store id (some ⟨.T_FILE, []⟩)) id full :=
    fun large => absurd large (by rw [blockCount_full]; exact lt_irrefl _)
  have bound : full.length ≤ maxfile * blockSize := by
    rw [length_full]
    simp
  have fits : Store.total (Function.update store id (some ⟨.T_FILE, []⟩)) +
      blockCount full.length ≤ blockNum - dataStart +
        Store.blocks (Function.update store id (some ⟨.T_FILE, []⟩)) id := by
    rw [empty, filled.total, blockCount_full]
    exact room.trans (Nat.le_add_right _ _)
  obtain ⟨last, ran, filled'⟩ := served_put created (Function.update_self id _ store) bound fits small
  rw [Function.update_idem] at filled'
  refine ⟨last, filled', ?_, ?_⟩
  · rw [grown, filled.total, blockCount_full]
    rfl
  · have more : (Finset.Icc 2 inodeNum).filter (fun other =>
        (Function.update store id (some (File.mk .T_FILE full)) other).isSome) ⊆
        insert id ((Finset.Icc 2 inodeNum).filter fun other => (store other).isSome) := by
      intro other member
      rw [Finset.mem_filter] at member
      by_cases same : other = id
      · simp [same]
      · rw [Function.update_of_ne same] at member
        exact Finset.mem_insert_of_mem (Finset.mem_filter.mpr member)
    exact (Finset.card_le_card more).trans ((Finset.card_insert_le _ _).trans
      (Nat.succ_le_succ filled.files))

theorem Filled.initial : Filled 0 (.init blockNum (fun _ => 0) 0) .initial where
  reachable := initial_reachable
  total := Store.total_initial
  files := by
    refine le_of_eq (Finset.card_eq_zero.mpr (Finset.filter_eq_empty_iff.mpr fun id member => ?_))
    have bounds := Finset.mem_Icc.mp member
    have other : id ≠ 1 := by omega
    simp [Store.initial, other]

theorem filled_of_le : ∀ count, count ≤ 317 → ∃ im store, Filled count im store := by
  intro count
  induction count with
  | zero => exact fun _ => ⟨_, _, .initial⟩
  | succ count ih =>
    intro bound
    obtain ⟨im, store, filled⟩ := ih (by omega)
    obtain ⟨next, id, created, real, fresh⟩ := filled.create (by simp; omega)
    obtain ⟨last, more⟩ := filled.put real fresh created (by simp; omega)
    exact ⟨last, _, more⟩

/-- On a disk that is full but for 32 blocks, a put of 100 blocks ends the process. -/
theorem put_exits_when_full : ∃ im store id, Reachable served (im, store) ∧
    (∃ file, store id = some file) ∧
    ExtentServer.put im id full 0 = .error .exit := by
  obtain ⟨im, store, filled⟩ := filled_of_le 317 le_rfl
  obtain ⟨next, id, created, real, fresh⟩ := filled.create (by simp)
  have represents : Represents next (Function.update store id (some ⟨.T_FILE, []⟩)) :=
    represents_of_reachable created
  refine ⟨next, _, id, created, ⟨_, Function.update_self id _ store⟩, ?_⟩
  refine put_exit represents (Function.update_self id _ store) ?_ ?_ ?_ 0
  · rw [length_full]
    simp
  · rw [Store.total_add real fresh, blockCount_full, filled.total]
    simp [Store.blocks, blockCount]
  · exact fun large => absurd large (by rw [blockCount_full]; exact lt_irrefl _)

/-! ## Sharing the table -/

/-- Files `one` and `other` reach one byte beyond the direct entries, and `other` was
just written. -/
structure Shared (im : InodeManager) (store : Store) (one other : ℕ) (file rival : File)
    (buf : List UInt8) (next : InodeManager) : Prop where
  represents : Represents im store
  found : store one = some file
  also : store other = some rival
  different : one ≠ other
  notRoot : one ≠ 1 ∧ other ≠ 1
  length : file.data.length = 51201
  length' : buf.length = 51201
  rewritten : Rewritten im other buf next

namespace Shared

variable {im next : InodeManager} {store : Store} {one other nth : ℕ} {file rival : File}
  {buf : List UInt8}

theorem count (shared : Shared im store one other file rival buf next) :
    blockCount file.data.length = ndirect + 1 := by
  rw [shared.length]
  rfl

theorem count' (shared : Shared im store one other file rival buf next) :
    blockCount buf.length = ndirect + 1 := by
  rw [shared.length']
  rfl

theorem record_eq (shared : Shared im store one other file rival buf next) :
    record next.bm.blocks one = record im.bm.blocks one :=
  shared.rewritten.others one (shared.represents.live one file shared.found) shared.different

theorem table (shared : Shared im store one other file rival buf next) :
    (record next.bm.blocks one).table = 0 := by
  rw [shared.record_eq]
  exact shared.represents.table one (shared.represents.live one file shared.found) shared.notRoot.1

theorem place_direct (shared : Shared im store one other file rival buf next)
    (near : nth < ndirect) : place next.bm one nth = place im.bm one nth := by
  rw [place, place, shared.record_eq, mapped_direct near, mapped_direct near]

/-- The last block of `one` is now that of `other`. -/
theorem place_stolen (shared : Shared im store one other file rival buf next) :
    place next.bm one ndirect = place next.bm other ndirect := by
  have table' : (record next.bm.blocks other).table = 0 := by
    rw [shared.rewritten.table]
    exact shared.represents.table other (shared.represents.live other rival shared.also)
      shared.notRoot.2
  rw [place, place, mapped_indirect le_rfl, mapped_indirect le_rfl, shared.table, table']

theorem place_ne (shared : Shared im store one other file rival buf next) (below : nth < ndirect + 1)
    {index : ℕ} (below' : index < ndirect + 1) :
    place next.bm other index ≠ place im.bm one nth := by
  rw [← shared.count] at below
  rw [← shared.count'] at below'
  exact shared.represents.other_ne shared.also shared.rewritten shared.found shared.different below
    index below'

theorem direct_or_last (below : nth < ndirect + 1) : nth < ndirect ∨ nth = ndirect := by omega

theorem placed (shared : Shared im store one other file rival buf next) :
    Placed next.bm (record next.bm.blocks one) (ndirect + 1) := by
  have old := shared.represents.placed one file shared.found
  have new := shared.rewritten.placed
  rw [shared.count] at old
  rw [shared.count'] at new
  refine ⟨by simp, fun _ => ?_, fun nth below => ?_, fun nth below => ?_,
    fun nth index below below' equal => ?_⟩
  · rw [shared.table]
    exact isFront_zero
  · show IsData (place next.bm one nth)
    rcases direct_or_last below with near | rfl
    · rw [shared.place_direct near]
      exact old.data nth below
    · rw [shared.place_stolen]
      exact new.data ndirect below
  · show next.bm.usingBlocks (place next.bm one nth) ≠ 0
    rcases direct_or_last below with near | rfl
    · rw [shared.place_direct near, shared.represents.other_marks shared.also shared.rewritten
        shared.found shared.different (by rw [shared.count]; exact below)]
      exact old.used nth below
    · rw [shared.place_stolen]
      exact new.used ndirect below
  · change place next.bm one nth = place next.bm one index at equal
    rcases direct_or_last below with near | rfl <;> rcases direct_or_last below' with near' | rfl
    · rw [shared.place_direct near, shared.place_direct near'] at equal
      exact old.distinct nth index below below' equal
    · rw [shared.place_direct near, shared.place_stolen] at equal
      exact absurd equal.symm (shared.place_ne below below')
    · rw [shared.place_direct near', shared.place_stolen] at equal
      exact absurd equal (shared.place_ne below' below)
    · rfl

theorem length_splice (shared : Shared im store one other file rival buf next) :
    (file.data.take 51200 ++ buf.drop 51200).length = 51201 := by
  simp [shared.length, shared.length']

theorem count_splice (shared : Shared im store one other file rival buf next) :
    blockCount (file.data.take 51200 ++ buf.drop 51200).length = ndirect + 1 := by
  rw [shared.length_splice]
  rfl

theorem content (shared : Shared im store one other file rival buf next) :
    Content next.bm.blocks (record next.bm.blocks one)
      (file.data.take 51200 ++ buf.drop 51200) := by
  have old := shared.represents.placed one file shared.found
  rw [shared.count] at old
  intro nth below index inside
  rw [shared.count_splice] at below
  rw [shared.length_splice] at inside
  change next.bm.blocks (place next.bm one nth) index = _
  rcases direct_or_last below with near | rfl
  · have early : blockSize * nth + index < 51200 := by
      have bound := index.isLt
      simp only [ndirect, blockSize] at near bound ⊢
      omega
    have kept : next.bm.blocks (place im.bm one nth) = im.bm.blocks (place im.bm one nth) :=
      shared.rewritten.data _ (old.data nth below) fun other inside' =>
        shared.place_ne below (by rwa [← shared.count'])
    have byte := shared.represents.content one file shared.found nth
      (by rw [shared.count]; exact below) index (by rw [shared.length]; exact inside)
    rw [shared.place_direct near, kept]
    apply byte.trans
    simp only [List.getD_eq_getElem?_getD]
    rw [List.getElem?_append_left (by rw [List.length_take, shared.length]; omega),
      List.getElem?_take_of_lt early]
  · have byte := shared.rewritten.content ndirect (by rw [shared.count']; exact below) index
      (by rw [shared.length']; exact inside)
    rw [shared.place_stolen]
    apply byte.trans
    simp only [List.getD_eq_getElem?_getD]
    rw [List.getElem?_append_right (by simp [shared.length]), List.getElem?_drop]
    simp [shared.length]

end Shared

theorem stolen_table {im next : InodeManager} {store : Store} {one other : ℕ} {file rival : File}
    {buf : List UInt8} (shared : Shared im store one other file rival buf next) (now : UInt32) :
    ∃ last, ExtentServer.get next one now =
      .ok (last, .OK, file.data.take 51200 ++ buf.drop 51200) := by
  have real := shared.represents.live one file shared.found
  have whole := shared.length_splice
  have size : (record next.bm.blocks one).size.toNat =
      (file.data.take 51200 ++ buf.drop 51200).length := by
    rw [shared.record_eq, shared.represents.size_toNat shared.found, shared.length, whole]
  obtain ⟨last, rv, ran, bytes, _⟩ := readFile_ok now real size
    (by rw [shared.count_splice]; exact shared.placed.writable) shared.content
  refine ⟨last, ?_⟩
  have filled : (record next.bm.blocks one).size ≠ 0 := by
    intro empty
    rw [empty, whole] at size
    exact absurd size (by decide)
  simp only [ExtentServer.get, mask_eq real, ran, bind, Except.bind, if_neg filled, size, bytes]

theorem splice_ne : (beyond 97).take 51200 ++ (beyond 98).drop 51200 ≠ beyond 97 := by
  intro same
  have byte := congrArg (fun buf : List UInt8 => buf.getD 51200 0) same
  have tail := beyond_getD 98 (show 51200 < 51201 by decide)
  simp only [beyond_getD 97 (show 51200 < 51201 by decide)] at byte
  rw [List.getD_eq_getElem?_getD] at byte tail
  rw [List.getElem?_append_right (by rw [List.length_take, length_beyond]; decide),
    List.getElem?_drop, List.length_take, length_beyond] at byte
  exact absurd (tail.symm.trans byte) (by decide)

/-- Two ids with a content beyond the direct entries: the second put replaces the
last byte of the first content. -/
theorem shared_table : ∃ im₁ im₂ im₃ im₄ im₅ buf,
    ExtentServer.create (.init blockNum (fun _ => 0) 0) ExtentType.T_FILE.code 0 =
      .ok (im₁, .OK, 2) ∧
    ExtentServer.create im₁ ExtentType.T_FILE.code 0 = .ok (im₂, .OK, 3) ∧
    ExtentServer.put im₂ 2 (beyond 97) 0 = .ok (im₃, .OK) ∧
    ExtentServer.put im₃ 3 (beyond 98) 0 = .ok (im₄, .OK) ∧
    ExtentServer.get im₄ 2 0 = .ok (im₅, .OK, buf) ∧ buf ≠ beyond 97 := by
  obtain ⟨im₁, im₂, first, second, created⟩ := two_created
  obtain ⟨im₃, third, represents₃⟩ := put_ok (represents_of_reachable created) twoFiles_two (beyond_fits 97)
    (by rw [total_twoFiles, blockCount_beyond, Store.blocks_some twoFiles_two]; simp [blockCount])
    (fun _ => ⟨by decide, fun other rival also large => absurd large (twoFiles_small also)⟩) 0
  change Represents im₃ oneLarge at represents₃
  obtain ⟨im₄, fourth, rewritten⟩ := put_rewrites represents₃ oneLarge_three (beyond_fits 98)
    (by rw [total_oneLarge, blockCount_beyond, Store.blocks_some oneLarge_three]; simp [blockCount])
    (fun _ => by decide) 0
  obtain ⟨im₅, fifth⟩ := stolen_table ⟨represents₃, oneLarge_two, oneLarge_three, by decide,
    by decide, length_beyond 97, length_beyond 98, rewritten⟩ 0
  exact ⟨im₁, im₂, im₃, im₄, im₅, _, first, second, third, fourth, fifth, splice_ne⟩

end NaiveFileSystem.Extent
