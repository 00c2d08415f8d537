import NaiveFileSystem.Fuse.Mount
import NaiveFileSystem.Yfs.OnDisk

/-!
# A mounted client over the disk

The handlers of the FUSE server over the client, its cache, the extent server and the
blocks and inodes of its disk. As long as the server process goes on, the kernel sees a
file system.
-/

namespace NaiveFileSystem.Fuse

open Extent Cache Yfs Transition Program

/-- A call over the server process, which outlives it; what is written back spares the tables
of other files. -/
def Wired (op : Op) (state next : Table × Process) (reply : op.Reply) : Prop :=
  (∃ (wire : Wire) (env : Ambient), handle wire.rpc env op state = (next, reply)) ∧
    next.2 ≠ none ∧ ∀ eid, op = .flush eid → WritesFarAlone state.2 state.1 eid

/-- What the client sees is on the disk, or in its table. -/
def Stores (view : View) (state : Table × Process) : Prop :=
  ∃ contents, Serves state.2 contents ∧ Views view (state.1, contents)

section Calls

variable {view : View} {state next : Table × Process} {contents : Contents}

theorem wired_called {op : Op} {reply : op.Reply} {post : View → op.Reply → Prop}
    (serves : Serves state.2 contents) (views : Views view (state.1, contents))
    (wired : Wired op state next reply) (needs : lone op view post) :
    ∃ contents', Called op (state.1, contents) (next.1, contents') reply ∧ Serves next.2 contents' := by
  obtain ⟨table, process⟩ := state
  obtain ⟨⟨wire, env, ran⟩, alive, spared⟩ := wired
  have held : ∀ eid file, view.files eid = some file → contents eid ≠ none := by
    intro eid file found gone
    obtain ⟨stored, here, _⟩ := (views.sees eid file found).held
    cases gone.symm.trans here
  have extent : ∀ eid file, op.extent = some eid → view.files eid = some file →
      ∃ contents', Called op (table, contents) (next.1, contents') reply ∧
        Serves next.2 contents' := by
    intro eid file about found
    have live := held eid file found
    obtain ⟨rpc, steady, agrees⟩ := handle_agrees serves env about (fun _ _ => live)
      (fun _ _ _ => live) (fun flush => spared eid flush) (by rw [ran]; exact alive)
    rw [ran] at agrees
    refine ⟨(handle rpc env op (table, contents)).1.2, ⟨rpc, env, steady.toFaithful, ?_, ?_⟩,
      agrees.serves⟩
    · exact Prod.ext (Prod.ext agrees.table.symm rfl) agrees.reply.symm
    · rintro code out rfl
      cases about
  cases op with
  | create code out =>
    obtain ⟨type, rfl, _⟩ := needs
    have goes : (wire.rpc.create process type.code).1 ≠ none := by
      rw [← congrArg (fun result => result.1.2) ran] at alive
      exact alive
    obtain ⟨process', id, made, fresh, serves'⟩ := serves.create type goes
    simp only [handle, ExtentClientCache.create, made, Option.getD_some] at ran
    cases ran
    refine ⟨_, ⟨plain id, env, faithful_plain id, rfl, ?_⟩, ?_⟩
    · rintro code out ⟨⟩
      exact ⟨_, id, rfl, fresh⟩
    · simpa [plain, typeOf_code] using serves'
  | get eid buf =>
    obtain ⟨file, found, _⟩ := needs
    exact extent eid file rfl found
  | getattr eid attr =>
    obtain ⟨file, found, _⟩ := needs
    exact extent eid file rfl found
  | put eid buf =>
    obtain ⟨file, found, _⟩ := needs
    exact extent eid file rfl found
  | remove eid =>
    obtain ⟨file, found, _⟩ := needs
    exact extent eid file rfl found
  | flush eid =>
    obtain ⟨file, found, _⟩ := needs
    exact extent eid file rfl found
  | acquire lid | release lid =>
    cases ran
    exact ⟨contents, ⟨plain 1, env, faithful_plain 1, rfl, fun _ _ same => by cases same⟩, serves⟩

theorem meets_wired : Meets Stores Wired := by
  refine ⟨fun view state ⟨contents, serves, views⟩ => ⟨contents, serves, views.forget⟩, ?_⟩
  rintro op view state next reply post ⟨contents, serves, views⟩ wired needs
  obtain ⟨contents', called, serves'⟩ := wired_called serves views wired needs
  obtain ⟨after, there, holds⟩ := meets_called.call op view _ _ reply post views called needs
  exact ⟨after, ⟨contents', serves', there⟩, holds⟩

end Calls

def Started (client : Table × Process) : Prop :=
  Blank (client.1 1) ∧ ∃ junk now, client.2 = some (.init blockNum junk now)

theorem stores_started {client : Table × Process} (started : Started client) :
    Stores FileSystem.empty.view client := by
  obtain ⟨blank, junk, now, running⟩ := started
  exact ⟨fun eid => Store.initial eid.toNat, ⟨_, _, running, .init junk now, fun _ => rfl⟩,
    views_rooted ⟨blank, rfl⟩⟩

/-- Every run over the disk, as the kernel sees it, is one of the file system. -/
theorem machine_refines {lib : Library} {limit : ℕ} (bound : limit < 2 ^ 31) {trace : List Event}
    {state : Mount Process} (run : Run (mount lib limit Wired Started) trace state) :
    Run (fileSystem lib limit) (trace.filterMap Event.shown) state.known ∧
      Stores state.known.view state.client :=
  mount_run meets_wired bound (fun _ => stores_started) run

/-- Calls other than a flush that the process outlives. -/
def unflushed : Op → Bool
  | .flush _ => false
  | _ => true

theorem wired_unflushed (wire : Wire) (env : Ambient) (op : Op) (state : Table × Process)
    (passes : ((handle wire.rpc env op state).1.2.isSome && unflushed op) = true) :
    Wired op state (handle wire.rpc env op state).1 (handle wire.rpc env op state).2 := by
  rw [Bool.and_eq_true] at passes
  refine ⟨⟨wire, env, rfl⟩, Option.isSome_iff_ne_none.mp passes.1, ?_⟩
  rintro eid rfl
  cases passes.2

theorem machine_created : ∃ (e : EntryParam) (state : Mount Process),
    Run (mount packed 100 Wired Started) [.serve (.create 1 ⟨[97], by decide⟩) (.create e)] state ∧
      state.known 2 = some (.file []) ∧
      (state.client.1 2).all (fun entry => entry.mState ≠ .MODIFIED) = true := by
  let wire : Wire := ⟨0, 0, 0⟩
  let env : Ambient := ⟨0, ⟨0, 0, 0, 0, 0⟩⟩
  let vars : Locals := ⟨⟨⟨0, 0, 0, 0, 0⟩, 0⟩, 0, ⟨0, 0, .cleared 0, 0, 0⟩⟩
  have begins : Run (mount packed 100 Wired Started) [] _ := .start
    (show (mount packed 100 Wired Started).init ⟨(fun _ => none, some (.init blockNum (fun _ => 0) 0)),
      .empty⟩ from ⟨rfl, fun _ none => (by cases none), _, _, rfl⟩)
  have made := begins.extend (.serve vars
    (show Request.Fits 100 _ (.create 1 ⟨[97], by decide⟩) from ⟨⟨[], rfl⟩, by decide⟩)
    (runs_of_passes (wired_unflushed wire env) rfl))
  exact ⟨_, _, made, rfl, rfl⟩

theorem machine_refines_created : ∃ (e : EntryParam) (state : Mount Process),
    Run (fileSystem packed 100) [(.create 1 ⟨[97], by decide⟩, .create e)] state.known := by
  obtain ⟨e, state, made, _⟩ := machine_created
  exact ⟨e, state, (machine_refines (by decide) made).1⟩

/-- What the kernel knows of an inum without a pending write-back is on the disk. -/
theorem machine_durable {lib : Library} {limit : ℕ} (bound : limit < 2 ^ 31) {state : Mount Process}
    (reachable : Reachable (mount lib limit Wired Started) state) {ino : Inum} {node : Node}
    (here : state.known ino = some node)
    (clean : ∀ entry, state.client.1 ino = some entry → entry.mState ≠ .MODIFIED) (wire : Wire) :
    (∃ next, wire.rpc.get state.client.2 ino = (next, .OK, some node.stored.data)) ∧
      ∃ a, wire.rpc.getattr state.client.2 ino = (state.client.2, .OK, some a) ∧
        Matches a node.stored := by
  obtain ⟨trace, run⟩ := reachable
  obtain ⟨_, contents, serves, views⟩ := mount_run meets_wired bound (fun _ => stores_started) run
  have sees := views.sees ino _ (stored_some here)
  obtain ⟨file, stored, type⟩ := sees.held
  have found : contents ino = some file := stored
  have data : (contents ino).map File.data = some node.stored.data := by
    rcases sees.reads with ⟨entry, there, modified, _⟩ | ⟨_, _, _, _, stored⟩ | ⟨_, stored⟩
    · exact absurd modified (clean entry there)
    · exact stored
    · exact stored
  rw [found, Option.map_some, Option.some.injEq] at data
  obtain ⟨next, got, _⟩ := @Serves.get wire _ _ _ _ serves found
  obtain ⟨a, asked, matching⟩ := @Serves.getattr wire _ _ serves ino
  obtain ⟨type', size⟩ := matching file found
  exact ⟨⟨next, data ▸ got⟩, a, asked, type'.trans (congrArg _ type), by rw [size, data]⟩

theorem machine_durable_created : ∃ (process next : Process),
    (Wire.mk 0 0 0).rpc.get process 2 = (next, .OK, some []) := by
  obtain ⟨e, state, made, here, clean⟩ := machine_created
  obtain ⟨⟨next, got⟩, _⟩ := machine_durable (by decide) made.reachable here
    (fun entry found => by simpa [found] using clean) ⟨0, 0, 0⟩
  exact ⟨state.client.2, next, got⟩

end NaiveFileSystem.Fuse
