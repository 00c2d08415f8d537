import NaiveFileSystem.Yfs.Session

/-!
# What a call touches

A call of the cache touches the entry and the inode of one extent. It keeps the
type of the inode, whoever else is at work, and only a put makes the entry one that
a flush writes.
-/

namespace NaiveFileSystem.Yfs

open Extent Cache

/-- The extent of a call that the cache answers under its mutex. -/
def Op.extent : Op → Option ExtentId
  | .get eid _ | .getattr eid _ | .put eid _ | .remove eid | .flush eid => some eid
  | .create _ _ | .acquire _ | .release _ => none

/-- The server does not know a `remove` without an id, and replies nothing to it. -/
def Rejects {σ : Type} (rpc : Rpc σ) : Prop := ∀ server, (rpc.removeBare server).2.2 = none

/-- A faithful server that rejects a remove without an id. -/
structure Steady (rpc : Rpc Contents) : Prop extends Faithful rpc where
  rejects : ∀ contents, ∃ ret, rpc.removeBare contents = (contents, ret, none)

theorem Steady.rejects_all {rpc : Rpc Contents} (steady : Steady rpc) : Rejects rpc := by
  intro contents
  obtain ⟨ret, ran⟩ := steady.rejects contents
  rw [ran]

theorem steady_plain (pick : ExtentId) : Steady (plain pick) where
  toFaithful := faithful_plain pick
  rejects _ := ⟨.library (-2), rfl⟩

section Calls

variable {rpc : Rpc Contents} {cache : Table} {server : Contents} {eid : ExtentId}

def NotWritten (old new : Option Entry) : Prop :=
  ∀ entry, new = some entry → entry.mState = .MODIFIED →
    ∃ before, old = some before ∧ before.mState = .MODIFIED

/-- What a call leaves of the other extents and of the type of its own. -/
structure Frame (eid : ExtentId) (state next : Table × Contents) : Prop where
  table : ∀ other, other ≠ eid → next.1 other = state.1 other
  server : ∀ other, other ≠ eid → next.2 other = state.2 other
  type : (next.2 eid).map File.type = (state.2 eid).map File.type

theorem Frame.of_update (slot : Option Entry) :
    Frame eid (cache, server) (Function.update cache eid slot, server) :=
  ⟨fun _ different => Function.update_of_ne different _ _, fun _ _ => rfl, rfl⟩

theorem Frame.live {other : ExtentId} {state after : Table × Contents} (frame : Frame eid state after)
    (live : state.2 other ≠ none) : after.2 other ≠ none := by
  by_cases same : other = eid
  · subst same
    intro missing
    have type := frame.type
    rw [missing, Option.map_none, eq_comm, Option.map_eq_none_iff] at type
    exact live type
  · rwa [frame.server other same]

theorem notWritten_refl (slot : Option Entry) : NotWritten slot slot :=
  fun entry here modified => ⟨entry, here, modified⟩

theorem get_frame (faithful : Faithful rpc) (env : Ambient) (buf : Bytes) (live : server eid ≠ none) :
    ∃ slot, (ExtentClientCache.get rpc env eid buf cache server).1 =
      (Function.update cache eid slot, server) ∧ NotWritten (cache eid) slot := by
  obtain ⟨file, found⟩ := Option.ne_none_iff_exists'.mp live
  have got := faithful.get server eid file found
  obtain ⟨attr, answered, _⟩ := faithful.getattr server eid
  cases here : cache eid with
  | none =>
    refine ⟨some ⟨file.data, .UPDATE, { attr with atime := env.now }⟩, ?_, ?_⟩
    · simp only [ExtentClientCache.get, here, got, answered, Option.getD_some, if_true]
    · rintro entry ⟨⟩ ⟨⟩
  | some entry =>
    cases kind : entry.mState with
    | NONE =>
      refine ⟨some ⟨file.data, .UPDATE,
        { entry.attr with atime := env.now, size := .ofNat file.data.length }⟩, ?_, ?_⟩
      · simp only [ExtentClientCache.get, here, kind, got, Option.getD_some, if_true]
      · rintro entry ⟨⟩ ⟨⟩
    | UPDATE | MODIFIED =>
      refine ⟨some { entry with attr := { entry.attr with atime := env.now } }, ?_, ?_⟩
      · simp only [ExtentClientCache.get, here, kind]
      · rintro touched ⟨⟩ modified
        exact ⟨entry, rfl, modified⟩
    | REMOVED =>
      refine ⟨cache eid, ?_, here ▸ notWritten_refl _⟩
      rw [Function.update_eq_self]
      simp only [ExtentClientCache.get, here, kind]

theorem getattr_frame (faithful : Faithful rpc) (attr : Attr) :
    ∃ slot, (ExtentClientCache.getattr rpc eid attr cache server).1 =
      (Function.update cache eid slot, server) ∧ NotWritten (cache eid) slot := by
  rcases ExtentClientCache.getattr_cases faithful attr with
    ⟨entry, ret, reply, _, ran, _⟩ | ⟨absent, reply, ran, _⟩
  · refine ⟨cache eid, ?_, notWritten_refl _⟩
    rw [ran, Function.update_eq_self]
  · refine ⟨some ⟨[], .NONE, reply⟩, by rw [ran], ?_⟩
    rintro entry ⟨⟩ ⟨⟩

theorem remove_frame (env : Ambient) :
    ∃ slot, (ExtentClientCache.remove env eid cache).1 = Function.update cache eid slot ∧
      NotWritten (cache eid) slot := by
  unfold ExtentClientCache.remove
  dsimp only
  split
  next => exact ⟨cache eid, (Function.update_eq_self eid cache).symm, notWritten_refl _⟩
  next =>
    refine ⟨_, rfl, ?_⟩
    rintro entry ⟨⟩ ⟨⟩

theorem put_frame (env : Ambient) (buf : Bytes) :
    ∃ slot, (ExtentClientCache.put env eid buf cache).1 = Function.update cache eid slot := by
  unfold ExtentClientCache.put
  dsimp only
  split
  next => exact ⟨cache eid, (Function.update_eq_self eid cache).symm⟩
  next => exact ⟨_, rfl⟩

theorem flush_frame (steady : Steady rpc) (live : ∀ entry, cache eid = some entry →
      entry.mState = .MODIFIED → server eid ≠ none) :
    Frame eid (cache, server) (ExtentClientCache.flush rpc eid cache server).1 ∧
      (ExtentClientCache.flush rpc eid cache server).1.1 eid = none := by
  have emptied : Frame eid (cache, server) (Function.update cache eid none, server) ∧
      Function.update cache eid none eid = none := ⟨.of_update none, Function.update_self _ _ _⟩
  cases here : cache eid with
  | none =>
    have unchanged : (ExtentClientCache.flush rpc eid cache server).1 =
        (Function.update cache eid none, server) := by
      rw [Table.erase_absent here]
      simp only [ExtentClientCache.flush, here]
    rw [unchanged]
    exact emptied
  | some entry =>
    cases kind : entry.mState with
    | NONE | UPDATE =>
      simp only [ExtentClientCache.flush, here, kind]
      exact emptied
    | MODIFIED =>
      obtain ⟨file, found⟩ := Option.ne_none_iff_exists'.mp (live entry here kind)
      simp only [ExtentClientCache.flush, here, kind, steady.put server eid file entry.data found]
      refine ⟨⟨emptied.1.table, fun _ different => Function.update_of_ne different _ _, ?_⟩, emptied.2⟩
      simp [found]
    | REMOVED =>
      obtain ⟨ret, ran⟩ := steady.rejects server
      simp only [ExtentClientCache.flush, here, kind, ran, Option.getD_none]
      exact emptied

theorem handle_frame (steady : Steady rpc) (env : Ambient) {op : Op} (extent : op.extent = some eid)
    (live : ∀ buf, op = .get eid buf → server eid ≠ none)
    (modified : ∀ entry, cache eid = some entry → entry.mState = .MODIFIED → server eid ≠ none) :
    Frame eid (cache, server) (handle rpc env op (cache, server)).1 ∧
      ((∀ buf, op ≠ .put eid buf) →
        NotWritten (cache eid) ((handle rpc env op (cache, server)).1.1 eid)) := by
  cases op with
  | get eid' buf =>
    cases extent
    obtain ⟨slot, ran, calm⟩ := @get_frame rpc cache server eid steady.toFaithful env buf
      (live buf rfl)
    simp only [handle, ran, Function.update_self]
    exact ⟨.of_update slot, fun _ => calm⟩
  | getattr eid' attr =>
    cases extent
    obtain ⟨slot, ran, calm⟩ := @getattr_frame rpc cache server eid steady.toFaithful attr
    simp only [handle, ran, Function.update_self]
    exact ⟨.of_update slot, fun _ => calm⟩
  | put eid' buf =>
    cases extent
    obtain ⟨slot, ran⟩ := @put_frame cache eid env buf
    simp only [handle, ran]
    exact ⟨.of_update slot, fun calm => absurd rfl (calm buf)⟩
  | remove eid' =>
    cases extent
    obtain ⟨slot, ran, calm⟩ := @remove_frame cache eid env
    simp only [handle, ran, Function.update_self]
    exact ⟨.of_update slot, fun _ => calm⟩
  | flush eid' =>
    cases extent
    obtain ⟨frame, erased⟩ := @flush_frame rpc cache server eid steady modified
    refine ⟨frame, fun _ entry here => ?_⟩
    rw [show (handle rpc env (.flush eid) (cache, server)).1.1 eid = none from erased] at here
    cases here
  | create type id | acquire lid | release lid => cases extent

theorem OnlyAt.frame {state next : Table × Contents} (only : OnlyAt eid state next) :
    Frame eid state next :=
  ⟨only.table, fun other _ => congrFun only.server other,
    congrArg (Option.map File.type) (congrFun only.server eid)⟩

end Calls

end NaiveFileSystem.Yfs
