import NaiveFileSystem.Fuse.Dirent
import NaiveFileSystem.Fuse.Handlers

/-!
# A mounted client

The kernel's requests are served one after the other by a client whose locks are all
free, and extents are flushed between them. Its replies are those of the file system that
the kernel builds up from them.
-/

namespace NaiveFileSystem.Fuse

open Extent Cache Yfs Transition Program

/-- The client with its server, and the file system that the kernel was told of. -/
structure Mount (σ : Type) where
  client : Table × σ
  known : FileSystem

inductive Event
  | serve (request : Request) (reply : Reply)
  | flush (eid : Inum)

def Event.shown : Event → Option (Request × Reply)
  | serve request reply => some (request, reply)
  | flush _ => none

section Mounts

variable {σ : Type} (lib : Library) (limit : ℕ)
  (calls : (op : Op) → Table × σ → Table × σ → op.Reply → Prop)

inductive Mounts : Mount σ → Event → Mount σ → Prop
  | serve {client known request next reply} (vars : Locals) : request.Fits limit known →
      (serve lib vars request).Runs calls client next reply →
      Mounts ⟨client, known⟩ (.serve request reply) ⟨next, after known request reply⟩
  | flush {client known eid next ret} : known eid ≠ none → calls (.flush eid) client next ret →
      Mounts ⟨client, known⟩ (.flush eid) ⟨next, known⟩

def mount (begins : Table × σ → Prop) : System (Mount σ) Event where
  init state := state.known = .empty ∧ begins state.client
  step := Mounts lib limit calls

end Mounts

def FileSystem.view (fs : FileSystem) : View := ⟨fs.stored, fun _ => False⟩

section Meets

variable {σ : Type} {lib : Library} {limit : ℕ} {fs : FileSystem} {client next : Table × σ}
  {calls : (op : Op) → Table × σ → Table × σ → op.Reply → Prop} {holds : View → Table × σ → Prop}

theorem serve_meets (meets : Meets holds calls) (formed : Formed limit fs) (bound : limit < 2 ^ 31)
    (here : holds fs.view client) {request : Request} {reply : Reply} (fits : request.Fits limit fs)
    {vars : Locals} (runs : (serve lib vars request).Runs calls client next reply) :
    request.Answers lib fs reply ∧ holds (after fs request reply).view next := by
  obtain ⟨last, there, answers, files⟩ := wp_runs meets.call runs fs.view here
    (@right_serve limit fs.view fs lib formed bound rfl request fits vars)
  refine ⟨answers, ?_⟩
  have forgotten := meets.forget last next there
  rwa [View.forget, files] at forgotten

theorem flush_meets (meets : Meets holds calls) (here : holds fs.view client) {eid : Inum}
    (live : fs eid ≠ none) {ret : Status} (called : calls (.flush eid) client next ret) :
    holds fs.view next := by
  obtain ⟨node, found⟩ := Option.ne_none_iff_exists'.mp live
  obtain ⟨_, there, rfl⟩ := meets.call (.flush eid) fs.view client next ret
    (fun last _ => last = fs.view) here called ⟨_, stored_some found, fun _ => rfl⟩
  exact there

theorem mount_run (meets : Meets holds calls) (bound : limit < 2 ^ 31) {begins : Table × σ → Prop}
    (initially : ∀ client, begins client → holds FileSystem.empty.view client)
    {trace : List Event} {state : Mount σ} (run : Run (mount lib limit calls begins) trace state) :
    Run (fileSystem lib limit) (trace.filterMap Event.shown) state.known ∧
      holds state.known.view state.client := by
  obtain ⟨fs, abstractly, rfl, here⟩ := @Run.refine_view _ _ _ _ (mount lib limit calls begins)
    (fileSystem lib limit) (fun state fs => state.known = fs ∧ holds fs.view state.client) Event.shown
    (fun state ⟨empty, begun⟩ => ⟨_, rfl, empty, initially _ begun⟩)
    (fun state event next fs _ reachable related steps => by
      obtain ⟨rfl, here⟩ := related
      have formed := formed_of_reachable reachable
      cases steps with
      | serve vars fits runs =>
        obtain ⟨answers, there⟩ := serve_meets meets formed bound here fits runs
        exact ⟨_, .steps ⟨fits, answers, rfl⟩, rfl, there⟩
      | flush live called =>
        exact ⟨_, .stays, rfl, flush_meets meets here live called⟩) _ _ run
  exact ⟨abstractly, here⟩

end Meets

/-! ## Over a faithful server -/

/-- What a client has of the empty root: nothing, or what its constructor puts, if that got
the type of a directory. -/
def Blank (slot : Option Entry) : Prop := ∀ entry, slot = some entry →
  entry.data = [] ∧ entry.mState = .MODIFIED ∧ Matches entry.attr ⟨.T_DIR, []⟩

def Rooted (client : Table × Contents) : Prop :=
  Blank (client.1 1) ∧ client.2 1 = some ⟨.T_DIR, []⟩

theorem views_rooted {client : Table × Contents} (rooted : Rooted client) :
    Views FileSystem.empty.view client := by
  obtain ⟨blank, root⟩ := rooted
  refine ⟨fun eid file found => ?_, fun _ cached => False.elim cached⟩
  have stored : FileSystem.empty.stored eid = some file := found
  by_cases same : eid = 1
  · subst same
    cases (stored_some (Function.update_self _ _ _)).symm.trans stored
    refine ⟨?_, fun entry here => (blank entry here).2.2, _, root, rfl⟩
    cases here : client.1 1 with
    | none => exact .inr (.inr ⟨bare_none, congrArg (Option.map File.data) root⟩)
    | some entry =>
      obtain ⟨empty, modified, _⟩ := blank entry here
      exact .inl ⟨entry, rfl, modified, empty⟩
  · have none : FileSystem.empty eid = none := Function.update_of_ne same _ _
    simp [FileSystem.stored, none] at stored

section Faithful

variable {lib : Library} {limit : ℕ}

/-- Every run of the mounted client, as the kernel sees it, is one of the file system. -/
theorem mount_refines (bound : limit < 2 ^ 31) {trace : List Event} {state : Mount Contents}
    (run : Run (mount lib limit Called Rooted) trace state) :
    Run (fileSystem lib limit) (trace.filterMap Event.shown) state.known ∧
      Views state.known.view state.client :=
  mount_run meets_called bound (fun _ => views_rooted) run

/-- The calls that are answered by a server that hands out one inum. -/
def unmade (id : Inum) : Op → Table × Contents → Bool
  | .create _ _, state => (state.2 id).isNone
  | _, _ => true

theorem called_plain (env : Ambient) (id : Inum) (op : Op) (state : Table × Contents)
    (passes : unmade id op state = true) :
    Called op state (handle (plain id) env op state).1 (handle (plain id) env op state).2 := by
  refine ⟨plain id, env, faithful_plain id, rfl, ?_⟩
  rintro code out rfl
  exact ⟨_, id, rfl, Option.isNone_iff_eq_none.mp passes⟩

/-- A file is made, written behind its end, flushed and read. -/
theorem mount_refines_written : ∃ (e : EntryParam) (state : Mount Contents),
    Run (fileSystem packed 100) [(.create 1 ⟨[97], by decide⟩, .create e),
      (.write 2 [65, 66] 1, .write 2), (.read 2 9 0, .buf [0, 65, 66])] state.known := by
  let env : Ambient := ⟨0, ⟨0, 0, 0, 0, 0⟩⟩
  let vars : Locals := ⟨⟨⟨0, 0, 0, 0, 0⟩, 0⟩, 0, ⟨0, 0, .cleared 0, 0, 0⟩⟩
  have begins : Run (mount packed 100 Called Rooted) [] _ := .start
    (show (mount packed 100 Called Rooted).init ⟨(fun _ => none, fun id => if id = 1 then
      some ⟨.T_DIR, []⟩ else none), .empty⟩ from ⟨rfl, fun _ none => (by cases none), rfl⟩)
  have made := begins.extend (.serve vars
    (show Request.Fits 100 _ (.create 1 ⟨[97], by decide⟩) from ⟨⟨[], rfl⟩, by decide⟩)
    (runs_of_passes (called_plain env 2) rfl))
  have written := made.extend (.serve vars
    (show Request.Fits 100 _ (.write 2 [65, 66] 1) from ⟨⟨[], rfl⟩, by decide⟩)
    (runs_of_passes (called_plain env 2) rfl))
  have read := written.extend (.serve vars
    (show Request.Fits 100 _ (.read 2 9 0) from ⟨_, rfl⟩)
    (runs_of_passes (called_plain env 2) rfl))
  obtain ⟨run, _⟩ := mount_refines (by decide) read
  exact ⟨_, _, run⟩

theorem Mounts.known (bound : limit < 2 ^ 31) {state next : Mount Contents} {event : Event}
    (reachable : Reachable (mount lib limit Called Rooted) state)
    (steps : Mounts lib limit Called state event next) :
    (∃ request reply, event = .serve request reply ∧ request.Fits limit state.known ∧
      request.Answers lib state.known reply ∧ next.known = after state.known request reply) ∨
    (∃ eid, event = .flush eid ∧ next.known = state.known) := by
  obtain ⟨trace, run⟩ := reachable
  obtain ⟨abstractly, here⟩ := mount_run meets_called bound (fun _ => views_rooted) run
  have formed := formed_of_reachable abstractly.reachable
  cases steps with
  | serve vars fits runs =>
    obtain ⟨answers, _⟩ := serve_meets meets_called formed bound here fits runs
    exact .inl ⟨_, _, rfl, fits, answers, rfl⟩
  | flush => exact .inr ⟨_, rfl, rfl⟩

end Faithful

end NaiveFileSystem.Fuse
