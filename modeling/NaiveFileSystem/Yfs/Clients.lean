import NaiveFileSystem.Cache.Attributes
import NaiveFileSystem.Yfs.Discipline

/-!
# Clients at work side by side

Threads of any number of clients run operations, one call at a time. The lock
layer grants a lock to one thread at a time; the client keeps the lock until it is
asked for elsewhere, and flushes the extent before it hands the lock over.
-/

namespace NaiveFileSystem.Yfs

open Extent Cache Transition Program

/-- A thread in an operation: what is left of it, a create that is answered but not
recorded in the table yet, whether it waits for attributes that the server has
answered, and the lock it holds with the content at the grant. -/
structure Thread (κ : Type) where
  client : κ
  call : Call
  rest : Action Unit
  recording : Option (ExtentType × Inum)
  asking : Bool
  held : Option (Inum × Bytes)

structure World (κ ι : Type) where
  caches : State κ
  holder : Inum → Option ι
  threads : ι → Option (Thread κ)

inductive Event (κ ι : Type)
  | start (thread : ι) (client : κ) (call : Call)
  | finish (thread : ι)
  | acquire (thread : ι) (lid : Inum)
  | release (thread : ι) (lid : Inum)
  | call (thread : ι) (label : Label κ)
  | handOver (client : κ) (lid : Inum)

/-- A call of the cache that is one step, with its reply and its label. A `getattr` is
one where the entry is there. -/
inductive Answered {κ : Type} (client : κ) : (op : Op) → op.Reply → Label κ → Prop
  | get {eid buf ret reply} : Answered client (.get eid buf) (ret, reply) (.get client eid ret reply)
  | getattr {eid attr ret reply} :
      Answered client (.getattr eid attr) (ret, reply) (.getattr client eid ret reply)
  | put {eid buf ret} : Answered client (.put eid buf) ret (.put client eid buf ret)
  | flush {eid ret} : Answered client (.flush eid) ret (.flush client eid ret)

section System

variable {κ ι : Type} [DecidableEq κ] [DecidableEq ι]

def World.set (world : World κ ι) (t : ι) (thread : Option (Thread κ)) : World κ ι :=
  { world with threads := Function.update world.threads t thread }

inductive Moves : World κ ι → Event κ ι → World κ ι → Prop
  | start {world t client call} (vars : Locals) : world.threads t = none →
      world.caches.latest call.inum ≠ none →
      Moves world (.start t client call) (world.set t (some ⟨client, call, call.body vars, none, false, none⟩))
  | finish {world t thread} : world.threads t = some thread → thread.rest = .done () →
      Moves world (.finish t) (world.set t none)
  | acquire {world t thread lid next} : world.threads t = some thread →
      thread.rest = .call (.acquire lid) next → world.holder lid = none →
      (world.caches.owner lid = some thread.client ∨ world.caches.owner lid = none) →
      Moves world (.acquire t lid) (World.set { world with
          caches := { world.caches with
            owner := Function.update world.caches.owner lid (some thread.client) }
          holder := Function.update world.holder lid (some t) } t
        (some { thread with
          rest := next (), held := some (lid, (world.caches.latest lid).getD []) }))
  | release {world t thread lid next} : world.threads t = some thread →
      thread.rest = .call (.release lid) next →
      Moves world (.release t lid)
        (World.set { world with holder := Function.update world.holder lid none } t
          (some { thread with rest := next (), held := none }))
  | call {world t thread op reply label next after} : world.threads t = some thread →
      thread.rest = .call op next → Answered thread.client op reply label →
      Effect world.caches label after →
      Moves world (.call t label) (World.set { world with caches := after } t
        (some { thread with rest := next reply }))
  | request {world t thread type arg next id after} : world.threads t = some thread →
      thread.rest = .call (.create (ExtentType.code type) arg) next → thread.recording = none →
      Effect world.caches (.request thread.client type id) after →
      Moves world (.call t (.request thread.client type id))
        (World.set { world with caches := after } t
          (some { thread with recording := some (type, id) }))
  | record {world t thread type code arg next id after} : world.threads t = some thread →
      thread.rest = .call (.create code arg) next → thread.recording = some (type, id) →
      Effect world.caches (.record thread.client type id) after →
      Moves world (.call t (.record thread.client type id))
        (World.set { world with caches := after } t
          (some { thread with rest := next (.OK, id), recording := none }))
  | ask {world t thread client eid arg next attr after} : world.threads t = some thread →
      thread.client = client → thread.rest = .call (.getattr eid arg) next →
      Effect world.caches (.ask client eid attr) after →
      Moves world (.call t (.ask client eid attr))
        (World.set { world with caches := after } t (some { thread with asking := true }))
  | note {world t thread client eid arg next attr after} : world.threads t = some thread →
      thread.client = client → thread.rest = .call (.getattr eid arg) next →
      thread.asking = true → Effect world.caches (.note client eid attr) after →
      Moves world (.call t (.note client eid attr))
        (World.set { world with caches := after } t
          (some { thread with rest := next (.OK, attr), asking := false }))
  | handOver {world client lid ret after} : world.caches.owner lid = some client →
      world.holder lid = none → Effect world.caches (.flush client lid ret) after →
      Moves world (.handOver client lid) { world with
        caches := { after with owner := Function.update after.owner lid none } }

/-- The write-backs spare what clients were told of sizes, from the server's answer on,
and the lengths fit. -/
def Considerate (world : World κ ι) : Event κ ι → Prop
  | .call _ label => Spares world.caches label
  | .handOver client lid => Spares world.caches (.flush client lid .OK)
  | _ => True

def clients : System (World κ ι) (Event κ ι) where
  init world := caching.init world.caches ∧ (∀ lid, world.holder lid = none) ∧
    (∀ t, world.threads t = none) ∧
    ∀ eid file, world.caches.server eid = some file → file.data.length < 2 ^ 32
  step := Moves

/-- The runs in which every step is considerate. -/
def considerate : System (World κ ι) (Event κ ι) where
  init := clients.init
  step world event next := Considerate world event ∧ clients.step world event next

end System

end NaiveFileSystem.Yfs
