import NaiveFileSystem.Fuse.Mount
import NaiveFileSystem.Fuse.Replies
import NaiveFileSystem.Yfs.Dirty

/-!
# The root before its first write-back

The constructor of a client puts an empty text on the root without having asked for its
attributes, so its entry has the type that its memory happens to hold. As long as the
entry is not written back the root is no directory to the kernel.
-/

namespace NaiveFileSystem.Fuse

open Extent Cache Yfs Transition Program

/-- The entry of the root was put and is not written back; it has some type. -/
def Unwritten {σ : Type} (type : UInt32) (state : Table × σ) : Prop :=
  ∃ entry, state.1 1 = some entry ∧ entry.mState = .MODIFIED ∧ entry.attr.type = type

/-- A call over any server, which neither writes the root back nor drops it. -/
def Sparing {σ : Type} (op : Op) (state next : Table × σ) (reply : op.Reply) : Prop :=
  (∃ rpc env, Rejects rpc ∧ handle rpc env op state = (next, reply)) ∧
    match op, reply with
    | .flush eid, _ | .remove eid, _ => eid ≠ 1
    | .create _ _, (_, id) => id ≠ 1
    | _, _ => True

def Typing (type : UInt32) : (op : Op) → op.Reply → Prop
  | .getattr eid _, (ret, a) => eid = 1 → ret = .OK ∧ a.type = type
  | _, _ => True

section Calls

variable {σ : Type} {rpc : Rpc σ} {type : UInt32} {cache : Table} {server : σ} {eid : ExtentId}

theorem handle_slot (rejects : Rejects rpc) (env : Ambient) {op : Op} (extent : op.extent = some eid) :
    ∃ slot, (handle rpc env op (cache, server)).1.1 = Function.update cache eid slot := by
  have same : ∃ slot, cache = Function.update cache eid slot :=
    ⟨cache eid, (Function.update_eq_self eid cache).symm⟩
  cases op with
  | get id buf =>
    cases extent
    simp only [handle, ExtentClientCache.get]
    cases here : cache eid with
    | none =>
      dsimp only
      split
      · exact ⟨_, rfl⟩
      · exact same
    | some entry =>
      dsimp only
      cases entry.mState with
      | UPDATE | MODIFIED => exact ⟨_, rfl⟩
      | NONE =>
        dsimp only
        split
        · exact ⟨_, rfl⟩
        · exact same
      | REMOVED => exact same
  | getattr id attr =>
    cases extent
    simp only [handle, ExtentClientCache.getattr]
    cases here : cache eid with
    | none =>
      dsimp only
      split
      · exact ⟨_, rfl⟩
      · exact same
    | some entry =>
      dsimp only
      cases entry.mState with
      | UPDATE | MODIFIED | NONE | REMOVED => exact same
  | put id buf =>
    cases extent
    simp only [handle, ExtentClientCache.put]
    split
    · exact same
    · exact ⟨_, rfl⟩
  | remove id =>
    cases extent
    simp only [handle, ExtentClientCache.remove]
    split
    · exact same
    · exact ⟨_, rfl⟩
  | flush id =>
    cases extent
    exact ⟨none, flush_table rejects⟩
  | create code out | acquire lid | release lid => cases extent

theorem unwritten_other (rejects : Rejects rpc) (env : Ambient) {op : Op}
    (extent : op.extent = some eid) (other : eid ≠ 1) (unwritten : Unwritten type (cache, server)) :
    Unwritten type (handle rpc env op (cache, server)).1 := by
  obtain ⟨entry, here, rest⟩ := unwritten
  obtain ⟨slot, table⟩ := @handle_slot σ rpc cache server eid rejects env op extent
  refine ⟨entry, ?_, rest⟩
  rw [table, Function.update_of_ne other.symm]
  exact here

theorem Sparing.keeps {op : Op} {state next : Table × σ} {reply : op.Reply}
    (unwritten : Unwritten type state) (spares : Sparing op state next reply) :
    Typing type op reply ∧ Unwritten type next := by
  obtain ⟨cache, server⟩ := state
  obtain ⟨⟨rpc, env, rejects, ran⟩, other⟩ := spares
  obtain rfl : (handle rpc env op (cache, server)).1 = next := congrArg Prod.fst ran
  obtain rfl : (handle rpc env op (cache, server)).2 = reply := congrArg Prod.snd ran
  have ⟨entry, here, modified, typed⟩ := unwritten
  have here : cache 1 = some entry := here
  cases op with
  | create code out =>
    refine ⟨trivial, entry, ?_, modified, typed⟩
    exact (ExtentClientCache.recordCreated_of_ne env _ (Ne.symm other)).trans here
  | get eid buf =>
    refine ⟨trivial, ?_⟩
    by_cases root : eid = 1
    · subst root
      refine ⟨{ entry with attr := { entry.attr with atime := env.now } }, ?_, modified, typed⟩
      simp only [handle, ExtentClientCache.get, here, modified, Function.update_self]
    · exact unwritten_other rejects env rfl root unwritten
  | getattr eid attr =>
    by_cases root : eid = 1
    · subst root
      have answers : handle rpc env (.getattr 1 attr) (cache, server) =
          ((cache, server), .OK, entry.attr) := by
        simp only [handle, ExtentClientCache.getattr, here, modified]
      rw [answers]
      exact ⟨fun _ => ⟨rfl, typed⟩, unwritten⟩
    · exact ⟨fun same => absurd same root, unwritten_other rejects env rfl root unwritten⟩
  | put eid buf =>
    refine ⟨trivial, ?_⟩
    by_cases root : eid = 1
    · subst root
      have there : cache.entry env 1 = entry := by rw [Table.entry, here, Option.getD_some]
      refine ⟨⟨buf, .MODIFIED, { entry.attr with
        mtime := env.now, ctime := env.now, size := .ofNat buf.length }⟩, ?_, rfl, typed⟩
      simp [handle, ExtentClientCache.put, there, modified]
    · exact unwritten_other rejects env rfl root unwritten
  | remove eid => exact ⟨trivial, unwritten_other rejects env rfl other unwritten⟩
  | flush eid => exact ⟨trivial, unwritten_other rejects env rfl other unwritten⟩
  | acquire lid | release lid => exact ⟨trivial, unwritten⟩

end Calls

/-! ## Runs before the write-back -/

section Sessions

variable {σ : Type}

/-- Requests are served one after the other, and extents are flushed between them. -/
def session (lib : Library) (calls : (op : Op) → Table × σ → Table × σ → op.Reply → Prop)
    (begins : Table × σ → Prop) : System (Table × σ) Event where
  init := begins
  step state event next := match event with
    | .serve request reply => ∃ vars, (serve lib vars request).Runs calls state next reply
    | .flush eid => ∃ ret, calls (.flush eid) state next ret

/-- The constructor has run for a client that had nothing of the root; `type` is what the memory
of the new entry held. -/
def Constructed (type : UInt32) (state : Table × σ) : Prop :=
  ∃ (rpc : Rpc σ) (env : Ambient) (before : Table × σ), env.junk.type = type ∧ before.1 1 = none ∧
    (YfsClient.init.run (handle rpc env) before).1 = state

theorem unwritten_constructed {type : UInt32} {state : Table × σ} (made : Constructed type state) :
    Unwritten type state := by
  obtain ⟨rpc, env, ⟨cache, server⟩, rfl, absent, rfl⟩ := made
  have absent : cache 1 = none := absent
  have there : cache.entry env 1 = ⟨[], .NONE, env.junk⟩ := by
    rw [Table.entry, absent, Option.getD_none]
  refine ⟨⟨[], .MODIFIED, { env.junk with mtime := env.now, ctime := env.now, size := 0 }⟩, ?_, rfl,
    rfl⟩
  show (ExtentClientCache.put env 1 [] cache).1 1 = _
  simp [ExtentClientCache.put, there]

/-- What the kernel is told of a root of a type that is no directory's. -/
def Astray (type : UInt32) : Request → Reply → Prop
  | .lookup parent _, reply => parent = 1 → reply = .err .ENOENT
  | .readdir ino _ _, reply => ino = 1 → reply = .err .ENOTDIR
  | .getattr ino, reply => ino = 1 → ∃ st, reply = .attr st ∧ st.mode =
    if type = ExtentType.T_FILE.code then S_IFREG ||| 0o666
    else if type = ExtentType.T_SYMLK.code then S_IFLNK ||| 0o777 else 0
  | _, _ => True

theorem typed_isType (type : UInt32) (vars : Yfs.Locals) (asked : ExtentType) :
    (YfsClient.isType vars asked 1).Always (Typing type) (· = decide (type = asked.code)) := by
  rintro ⟨ret, a⟩ answers
  obtain ⟨rfl, rfl⟩ := answers rfl
  rfl

theorem typed_getInfo {Info : Type} (type : UInt32) (vars : Yfs.Locals) (info : Attr → Info) :
    (YfsClient.getInfo vars info 1).Always (Typing type) fun result =>
      result.1 = Result.OK ∧ result.2 ≠ none := by
  rintro _ _ ⟨ret, a⟩ answers
  obtain ⟨rfl, _⟩ := answers rfl
  exact fun _ _ => ⟨rfl, Option.some_ne_none _⟩

theorem typed_find {type : UInt32} (wrong : type ≠ ExtentType.T_DIR.code) (vars : Yfs.Locals)
    (name : Bytes) (found : Bool) (inoOut : Inum) :
    (YfsClient.find vars 1 name found inoOut).Always (Typing type) (·.2.1 = found) := by
  rintro ⟨ret, a⟩ answers
  obtain ⟨rfl, rfl⟩ := answers rfl
  show Always _ (if a.type ≠ ExtentType.T_DIR.code then _ else _) _
  rw [if_pos wrong]
  rfl

theorem typed_lookup {type : UInt32} (wrong : type ≠ ExtentType.T_DIR.code) (vars : Yfs.Locals)
    (name : Bytes) (found : Bool) (inoOut : Inum) :
    (YfsClient.lookup vars 1 name found inoOut).Always (Typing type) (·.2.1 = found) := by
  intro _ _
  show Always _ (YfsClient.find vars 1 name found inoOut >>= _) _
  refine always_bind.mpr ((typed_find wrong vars name found inoOut).mono ?_)
  intro result same _ _
  exact same

theorem typed_getattr {type : UInt32} (wrong : type ≠ ExtentType.T_DIR.code) (vars : Yfs.Locals) :
    (getattr vars 1).Always (Typing type) fun result => result.1 = Result.OK ∧ result.2.mode =
      if type = ExtentType.T_FILE.code then S_IFREG ||| 0o666
      else if type = ExtentType.T_SYMLK.code then S_IFLNK ||| 0o777 else 0 := by
  refine always_after fun _ => always_bind.mpr ((typed_isType type vars .T_FILE).mono ?_)
  rintro _ rfl
  by_cases file : type = ExtentType.T_FILE.code
  · rw [decide_eq_true file, if_pos rfl, if_pos file]
    refine always_bind.mpr ((typed_getInfo type vars _).mono ?_)
    rintro ⟨_, info⟩ ⟨rfl, some⟩
    obtain ⟨info, rfl⟩ := Option.ne_none_iff_exists'.mp some
    exact ⟨rfl, rfl⟩
  rw [decide_eq_false file, if_neg file]
  refine always_bind.mpr ((typed_isType type vars .T_SYMLK).mono ?_)
  rintro _ rfl
  by_cases link : type = ExtentType.T_SYMLK.code
  · rw [decide_eq_true link, if_pos rfl, YfsClient.getsymlink, if_pos link]
    refine always_bind.mpr ((typed_getInfo type vars _).mono ?_)
    rintro ⟨_, info⟩ ⟨rfl, some⟩
    obtain ⟨info, rfl⟩ := Option.ne_none_iff_exists'.mp some
    exact ⟨rfl, rfl⟩
  rw [decide_eq_false link, if_neg link]
  refine always_bind.mpr ((typed_isType type vars .T_DIR).mono ?_)
  rintro _ rfl
  rw [decide_eq_false wrong]
  exact ⟨rfl, rfl⟩

theorem serve_astray {type : UInt32} (wrong : type ≠ ExtentType.T_DIR.code) (lib : Library)
    (vars : Locals) (request : Request) :
    (serve lib vars request).Always (Typing type) (Astray type request) := by
  cases request with
  | lookup parent name =>
    by_cases root : parent = 1
    · subst root
      refine always_bind.mpr ((typed_lookup wrong vars.yfs name.bytes false vars.inum).mono ?_)
      rintro ⟨ret, found, ino⟩ rfl
      exact fun _ => rfl
    · exact (always_true _).mono fun _ _ same => absurd same root
  | readdir ino size off =>
    by_cases root : ino = 1
    · subst root
      refine always_bind.mpr ((typed_isType type vars.yfs .T_DIR).mono ?_)
      rintro dir rfl
      rw [decide_eq_false wrong]
      exact fun _ => rfl
    · exact (always_true _).mono fun _ _ same => absurd same root
  | getattr ino =>
    by_cases root : ino = 1
    · subst root
      refine always_bind.mpr ((typed_getattr wrong vars.yfs).mono ?_)
      rintro ⟨_, st⟩ ⟨rfl, mode⟩
      exact fun _ => ⟨st, rfl, mode⟩
    · exact (always_true _).mono fun _ _ same => absurd same root
  | setattr | read | write | create | mknod | mkdir | open_ | unlink | symlink | readlink | statfs =>
    exact always_true _

/-- As long as the root is not written back, the kernel finds nothing in it. -/
theorem unflushed_root {type : UInt32} (wrong : type ≠ ExtentType.T_DIR.code) {lib : Library}
    {trace : List Event} {state : Table × σ}
    (run : Run (session lib Sparing (Constructed type)) trace state) :
    Unwritten type state ∧ ∀ request reply, .serve request reply ∈ trace → Astray type request reply := by
  induction run with
  | start made => exact ⟨unwritten_constructed made, fun _ _ none => by cases none⟩
  | @extend trace state event next _ steps ih =>
    obtain ⟨unwritten, astray⟩ := ih
    suffices here : Unwritten type next ∧
        ∀ request reply, event = .serve request reply → Astray type request reply by
      refine ⟨here.1, fun request reply member => ?_⟩
      rcases List.mem_append.mp member with earlier | last
      · exact astray request reply earlier
      · exact here.2 request reply (List.mem_singleton.mp last).symm
    cases event with
    | serve request reply =>
      obtain ⟨vars, runs⟩ := steps
      obtain ⟨wrong, kept⟩ := (serve_astray wrong lib vars request).runs
        (fun op state next reply here called => called.keeps here) runs unwritten
      refine ⟨kept, ?_⟩
      rintro _ _ ⟨⟩
      exact wrong
    | flush eid =>
      obtain ⟨ret, called⟩ := steps
      exact ⟨(called.keeps unwritten).2, fun _ _ same => by cases same⟩

end Sessions

def away : Op → Table × Contents → Bool
  | .flush eid, _ | .remove eid, _ => eid ≠ 1
  | _, _ => true

theorem sparing_plain (env : Ambient) (op : Op) (state : Table × Contents)
    (passes : away op state = true) :
    Sparing op state (handle (plain 2) env op state).1 (handle (plain 2) env op state).2 := by
  refine ⟨⟨plain 2, env, rejects_plain 2, rfl⟩, ?_⟩
  cases op with
  | create code out => exact (by decide : (2 : Inum) ≠ 1)
  | flush eid | remove eid => simpa [away] using passes
  | get | getattr | put | acquire | release => trivial

/-- A file that was made in the root is not found there. -/
theorem unflushed_root_created : ∃ (e : EntryParam) (state : Table × Contents) (reply : Reply),
    Run (session packed Sparing (Constructed 0)) [.serve (.create 1 ⟨[97], by decide⟩) (.create e),
      .serve (.lookup 1 ⟨[97], by decide⟩) reply] state ∧ reply = .err .ENOENT := by
  let env : Ambient := ⟨0, ⟨0, 0, 0, 0, 0⟩⟩
  let vars : Locals := ⟨⟨⟨0, 0, 0, 0, 0⟩, 0⟩, 0, ⟨0, 0, .cleared 0, 0, 0⟩⟩
  have begins : Run (session packed Sparing (Constructed 0)) [] _ := .start
    ⟨plain 2, env, (fun _ => none, fun _ => none), rfl, rfl, rfl⟩
  have made := begins.extend (show (session packed Sparing (Constructed 0)).step _
    (.serve (.create 1 ⟨[97], by decide⟩) _) _ from
      ⟨vars, runs_of_passes (sparing_plain env) rfl⟩)
  have sought := made.extend (show (session packed Sparing (Constructed 0)).step _
    (.serve (.lookup 1 ⟨[97], by decide⟩) _) _ from
      ⟨vars, runs_of_passes (sparing_plain env) rfl⟩)
  obtain ⟨_, astray⟩ := unflushed_root (by decide) sought
  exact ⟨_, _, _, sought, astray (.lookup 1 ⟨[97], by decide⟩) _
    (List.mem_append_right _ (List.mem_singleton_self _)) rfl⟩

end NaiveFileSystem.Fuse
