import NaiveFileSystem.Cache.Direct
import NaiveFileSystem.Lib.Transition

/-!
# The cached client beside the uncached one

One client makes the same calls through its cache and directly, each over a server
of its own. An entry that a put makes where there was none keeps whatever type its
attributes happened to hold, until a flush erases it. All calls are answered alike
but a `getattr` of such an entry, and that one exactly when the type is right.
-/

namespace NaiveFileSystem.Cache

open Extent Transition

/-- Both sides; `raw` is the type that an entry made by a put started with. -/
structure Pair where
  table : Table
  cached : Contents
  direct : Contents
  raw : ExtentId → Option UInt32

structure Exchange where
  call : Call
  cached : Answer
  direct : Option Answer

def Answer.Same : Answer → Answer → Prop
  | .attr ret one, .attr ret' other => ret = ret' ∧ one.type = other.type ∧ one.size = other.size
  | one, other => one = other

def Exchange.Same (exchange : Exchange) : Prop :=
  ∀ answer, exchange.direct = some answer → exchange.cached.Same answer

/-- What a client without removals may call, over a server whose calls succeed. -/
def Pair.Allows (pair : Pair) (rpc : Rpc Contents) : Call → Prop
  | .create type _ => ∃ id, Creates rpc pair.direct type id
  | .get eid _ | .getattr eid _ | .put eid _ | .flush eid => pair.direct eid ≠ none
  | .remove _ => False

def Pair.rawAfter (pair : Pair) (env : Ambient) : Call → ExtentId → Option UInt32
  | .put eid _ =>
    if (pair.table eid).isNone then Function.update pair.raw eid (some env.junk.type) else pair.raw
  | .flush eid => Function.update pair.raw eid none
  | _ => pair.raw

/-- Both clients make one call after the other, from the same contents on. -/
def sideBySide : System Pair Exchange where
  init pair := (∀ eid, pair.table eid = none) ∧ pair.cached = pair.direct ∧
    ∀ eid, pair.raw eid = none
  step pair exchange next := ∃ (rpc : DirectRpc Contents) (env : Ambient),
    Faithful rpc.toRpc ∧ Uniform rpc.toRpc ∧ pair.Allows rpc.toRpc exchange.call ∧
    ExtentClientCache.call rpc.toRpc env pair.table pair.cached exchange.call =
      ((next.table, next.cached), exchange.cached) ∧
    ExtentClient.call rpc pair.direct exchange.call = (next.direct, exchange.direct) ∧
    next.raw = pair.rawAfter env exchange.call

/-- The call reads a type that nobody has set. -/
def Pair.Misreads (pair : Pair) : Call → Prop
  | .getattr eid _ => ∃ junk file, pair.raw eid = some junk ∧ pair.direct eid = some file ∧
      junk ≠ file.type.code
  | _ => False

/-- How the sides are related at `eid`. -/
structure AlikeAt (pair : Pair) (eid : ExtentId) : Prop where
  types : (pair.cached eid).map File.type = (pair.direct eid).map File.type
  absent : pair.direct eid = none → pair.table eid = none
  fresh : pair.table eid = none → pair.raw eid = none
  reads : ∀ file, pair.direct eid = some file →
    Reads (pair.table eid) (pair.cached eid) file.data
  entry : ∀ file entry, pair.direct eid = some file → pair.table eid = some entry →
    entry.attr.type = (pair.raw eid).getD file.type.code ∧
      entry.attr.size = .ofNat file.data.length

def Alike (pair : Pair) : Prop := ∀ eid, AlikeAt pair eid

section Alike

variable {pair next : Pair} {eid : ExtentId} {file : File}

theorem Alike.live (alike : Alike pair) (eid : ExtentId) :
    pair.direct eid = none ↔ pair.cached eid = none := by
  have types := (alike eid).types
  constructor
  · intro none
    simpa [none] using types
  · intro none
    simpa [none] using types.symm

theorem AlikeAt.cached (alike : AlikeAt pair eid) (found : pair.direct eid = some file) :
    ∃ data, pair.cached eid = some ⟨file.type, data⟩ := by
  have types := alike.types
  rw [found] at types
  obtain ⟨held, here, type⟩ := Option.map_eq_some_iff.mp types
  exact ⟨held.data, by rw [here, ← type]⟩

theorem AlikeAt.kept (alike : AlikeAt pair eid) (table : next.table eid = pair.table eid)
    (cached : next.cached eid = pair.cached eid) (direct : next.direct eid = pair.direct eid)
    (raw : next.raw eid = pair.raw eid) : AlikeAt next eid := by
  obtain ⟨types, absent, fresh, reads, entry⟩ := alike
  constructor
  · rwa [cached, direct]
  · rwa [direct, table]
  · rwa [table, raw]
  · rwa [direct, table, cached]
  · rwa [direct, table, raw]

theorem AlikeAt.some (file : File) (data : Bytes) {entry : Entry} (table : next.table eid = some entry)
    (direct : next.direct eid = some file) (cached : next.cached eid = some ⟨file.type, data⟩)
    (reads : Reads (some entry) (some ⟨file.type, data⟩) file.data)
    (type : entry.attr.type = (next.raw eid).getD file.type.code)
    (size : entry.attr.size = .ofNat file.data.length) : AlikeAt next eid where
  types := by rw [cached, direct]; rfl
  absent none := by cases direct.symm.trans none
  fresh none := by cases table.symm.trans none
  reads other found := by
    cases direct.symm.trans found
    rwa [table, cached]
  entry other found here here' := by
    cases direct.symm.trans here
    cases table.symm.trans here'
    exact ⟨type, size⟩

theorem Alike.step (alike : Alike pair) (eid : ExtentId) (here : AlikeAt next eid)
    (others : ∀ other, other ≠ eid → next.table other = pair.table other ∧
      next.cached other = pair.cached other ∧ next.direct other = pair.direct other ∧
      next.raw other = pair.raw other) : Alike next := by
  intro other
  by_cases same : other = eid
  · exact same ▸ here
  · obtain ⟨table, cached, direct, raw⟩ := others other same
    exact (alike other).kept table cached direct raw

end Alike

section Calls

variable {pair : Pair} {rpc : DirectRpc Contents} {eid : ExtentId} {file : File}

theorem Alike.created (alike : Alike pair) (env : Ambient) {type : ExtentType} {id : ExtentId}
    (fresh : pair.direct id = none) : Alike {
      table := ExtentClientCache.recordCreated env type.code id pair.table
      cached := Function.update pair.cached id (some ⟨type, []⟩)
      direct := Function.update pair.direct id (some ⟨type, []⟩)
      raw := pair.raw } := by
  have unset := (alike id).fresh ((alike id).absent fresh)
  refine alike.step id (.some ⟨type, []⟩ []
    (Function.update_self _ _ _) (Function.update_self _ _ _) (Function.update_self _ _ _) ?_ ?_ rfl)
    fun other different => ⟨Function.update_of_ne different _ _, Function.update_of_ne different _ _,
      Function.update_of_ne different _ _, rfl⟩
  · exact .inr (.inr ⟨fun entry same => by rw [← Option.some.inj same], rfl⟩)
  · rw [unset]
    rfl

theorem Alike.put (alike : Alike pair) (env : Ambient) (buf : Bytes)
    (found : pair.direct eid = some file) :
    ∃ entry, ExtentClientCache.put env eid buf pair.table =
        (Function.update pair.table eid (some entry), .OK) ∧ Alike {
      table := Function.update pair.table eid (some entry)
      cached := pair.cached
      direct := Function.update pair.direct eid (some ⟨file.type, buf⟩)
      raw := pair.rawAfter env (.put eid buf) } := by
  have reads := (alike eid).reads file found
  obtain ⟨attr, ran, size, type⟩ := ExtentClientCache.put_ok env buf reads.not_removed
  obtain ⟨data, held⟩ := (alike eid).cached found
  refine ⟨_, ran, alike.step eid (.some ⟨file.type, buf⟩ data
    (Function.update_self _ _ _) (Function.update_self _ _ _) held ?_ ?_ size)
    fun other different => ⟨Function.update_of_ne different _ _, rfl,
      Function.update_of_ne different _ _, ?_⟩⟩
  · exact .inl ⟨_, rfl, rfl, rfl⟩
  · cases here : pair.table eid with
    | none => simp [type, Table.entry, here, Pair.rawAfter]
    | some entry =>
      have before := ((alike eid).entry file entry found here).1
      simpa [type, Table.entry, here, Pair.rawAfter] using before
  · unfold Pair.rawAfter
    simp only
    split
    · exact Function.update_of_ne different _ _
    · rfl

theorem Alike.get (alike : Alike pair) (faithful : Faithful rpc.toRpc) (env : Ambient) (buf : Bytes)
    (found : pair.direct eid = some file) :
    ∃ entry, ExtentClientCache.get rpc.toRpc env eid buf pair.table pair.cached =
        ((Function.update pair.table eid (some entry), pair.cached), .OK, file.data) ∧
      Alike { pair with table := Function.update pair.table eid (some entry) } := by
  obtain ⟨entry, ran, fetched⟩ :=
    ExtentClientCache.get_ok faithful env buf ((alike eid).reads file found)
  obtain ⟨data, held⟩ := (alike eid).cached found
  refine ⟨entry, ran, alike.step eid (.some file data (Function.update_self _ _ _)
    found held ?_ ?_ ?_) fun other different => ⟨Function.update_of_ne different _ _, rfl, rfl, rfl⟩⟩
  · rw [← held]
    exact fetched.reads
  · cases here : pair.table eid with
    | none =>
      rw [(alike eid).fresh here, fetched.newType here _ held]
      rfl
    | some old =>
      rw [fetched.type old here]
      exact ((alike eid).entry file old found here).1
  · refine fetched.size fun old here full => ?_
    have size := ((alike eid).entry file old found here).2
    rcases (alike eid).reads file found with
      ⟨other, same, _, content⟩ | ⟨other, same, _, content, _⟩ | ⟨bare, _⟩
    · cases here.symm.trans same
      rwa [content]
    · cases here.symm.trans same
      rwa [content]
    · exact absurd (bare old here) full

theorem Alike.getattr (alike : Alike pair) (faithful : Faithful rpc.toRpc) (arg : Attr)
    (found : pair.direct eid = some file) :
    ∃ table reply, ExtentClientCache.getattr rpc.toRpc eid arg pair.table pair.cached =
        ((table, pair.cached), .OK, reply) ∧ Alike { pair with table := table } ∧
      reply.type = (pair.raw eid).getD file.type.code ∧ reply.size = .ofNat file.data.length := by
  have reads := (alike eid).reads file found
  obtain ⟨data, held⟩ := (alike eid).cached found
  rcases ExtentClientCache.getattr_cases faithful arg with
    ⟨entry, ret, reply, here, ran, answer⟩ | ⟨absent, reply, ran, matching⟩
  · obtain ⟨rfl, rfl⟩ := answer (reads.not_removed entry here)
    exact ⟨pair.table, _, ran, alike, (alike eid).entry file entry found here⟩
  · have same := reads.held absent
    rw [held] at same
    cases Option.some.inj same
    obtain ⟨type, size⟩ := matching _ held
    have unset := (alike eid).fresh absent
    have known : reply.type = (pair.raw eid).getD file.type.code := by
      rw [unset, type]
      rfl
    refine ⟨_, reply, ran, alike.step eid (.some file file.data (Function.update_self _ _ _) found held
      ?_ known size) fun other different => ⟨Function.update_of_ne different _ _, rfl, rfl, rfl⟩,
      known, size⟩
    exact .inr (.inr ⟨fun entry same => by rw [← Option.some.inj same], rfl⟩)

theorem Alike.flush (alike : Alike pair) (faithful : Faithful rpc.toRpc) (env : Ambient)
    (found : pair.direct eid = some file) :
    ∃ cached ret, ExtentClientCache.flush rpc.toRpc eid pair.table pair.cached =
        ((Function.update pair.table eid none, cached), ret) ∧ Alike {
      table := Function.update pair.table eid none
      cached := cached
      direct := pair.direct
      raw := pair.rawAfter env (.flush eid) } := by
  obtain ⟨data, held⟩ := (alike eid).cached found
  obtain ⟨ret, ran⟩ := ExtentClientCache.flush_ok faithful ((alike eid).reads file found)
    (by simp [held])
  refine ⟨_, ret, ran, alike.step eid ⟨?_, fun none => ?_, fun _ => ?_, fun other here => ?_,
    fun _ entry _ here => ?_⟩ fun other different => ⟨Function.update_of_ne different _ _,
      Function.update_of_ne different _ _, rfl, Function.update_of_ne different _ _⟩⟩
  · simp [held, found]
  · simp
  · simp [Pair.rawAfter]
  · cases found.symm.trans here
    simp only [Function.update_self, held, Option.map_some]
    exact .inr (.inr ⟨bare_none, rfl⟩)
  · simp at here

theorem Alike.initial (begins : sideBySide.init pair) : Alike pair := by
  obtain ⟨empty, same, unset⟩ := begins
  intro eid
  refine ⟨by rw [same], fun _ => empty eid, fun _ => unset eid, fun file found => ?_,
    fun _ entry _ here => ?_⟩
  · rw [empty eid, same, found]
    exact .inr (.inr ⟨bare_none, rfl⟩)
  · cases (empty eid).symm.trans here

theorem Alike.exchange (alike : Alike pair) {exchange : Exchange} {next : Pair}
    (steps : sideBySide.step pair exchange next) :
    Alike next ∧ (exchange.Same ↔ ¬ pair.Misreads exchange.call) := by
  obtain ⟨rpc, env, faithful, uniform, allowed, cachedRan, directRan, raw⟩ := steps
  obtain ⟨call, cachedAnswer, directAnswer⟩ := exchange
  obtain ⟨table, cached, direct, rawNext⟩ := next
  simp only at allowed cachedRan directRan raw
  subst raw
  cases call with
  | create type arg =>
    obtain ⟨id, creates⟩ := allowed
    have beside := creates.congr uniform alike.live
    simp only [ExtentClientCache.call, ExtentClientCache.create, beside.run faithful] at cachedRan
    simp only [ExtentClient.call, ExtentClient.create, creates.run faithful] at directRan
    cases cachedRan
    cases directRan
    refine ⟨alike.created env creates.2, iff_of_true ?_ not_false⟩
    rintro answer ⟨⟩
    rfl
  | get eid buf =>
    obtain ⟨file, found⟩ := Option.ne_none_iff_exists'.mp allowed
    obtain ⟨entry, ran, after⟩ := alike.get faithful env buf found
    simp only [ExtentClientCache.call, ran] at cachedRan
    simp only [ExtentClient.call, ExtentClient.get, faithful.get _ _ _ found] at directRan
    cases cachedRan
    cases directRan
    refine ⟨after, iff_of_true ?_ not_false⟩
    rintro answer ⟨⟩
    rfl
  | getattr eid arg =>
    obtain ⟨file, found⟩ := Option.ne_none_iff_exists'.mp allowed
    obtain ⟨after, reply, ran, kept, type, size⟩ := alike.getattr faithful arg found
    obtain ⟨attr, answered, matching⟩ := faithful.getattr pair.direct eid
    obtain ⟨type', size'⟩ := matching file found
    simp only [ExtentClientCache.call, ran] at cachedRan
    simp only [ExtentClient.call, ExtentClient.getattr, answered, Option.getD_some] at directRan
    cases cachedRan
    cases directRan
    refine ⟨kept, ?_⟩
    have same : Exchange.Same ⟨.getattr eid arg, .attr .OK reply, some (.attr .OK attr)⟩ ↔
        (pair.raw eid).getD file.type.code = file.type.code := by
      simp only [Exchange.Same, Option.some.injEq, forall_eq', Answer.Same, true_and, type, type',
        size, size', and_true]
    rw [same]
    cases unset : pair.raw eid with
    | none => simp [Pair.Misreads, unset]
    | some junk => simp [Pair.Misreads, unset, found]
  | put eid buf =>
    obtain ⟨file, found⟩ := Option.ne_none_iff_exists'.mp allowed
    obtain ⟨entry, ran, after⟩ := alike.put env buf found
    simp only [ExtentClientCache.call, ran] at cachedRan
    simp only [ExtentClient.call, ExtentClient.put, faithful.put _ _ _ buf found] at directRan
    cases cachedRan
    cases directRan
    refine ⟨after, iff_of_true ?_ not_false⟩
    rintro answer ⟨⟩
    rfl
  | remove eid => exact False.elim allowed
  | flush eid =>
    obtain ⟨file, found⟩ := Option.ne_none_iff_exists'.mp allowed
    obtain ⟨written, ret, ran, after⟩ := alike.flush faithful env found
    simp only [ExtentClientCache.call, ran] at cachedRan
    simp only [ExtentClient.call] at directRan
    cases cachedRan
    cases directRan
    refine ⟨after, iff_of_true ?_ not_false⟩
    rintro answer ⟨⟩

theorem Alike.of_reachable (reachable : Reachable sideBySide pair) : Alike pair :=
  reachable.invariant (fun _ begins => .initial begins) fun _ _ _ alike steps =>
    (alike.exchange steps).1

end Calls

/-- In every run both clients answer the next call alike, unless it reads a type
that was never set. -/
theorem answers_same_iff {trace : List Exchange} {pair next : Pair} {exchange : Exchange}
    (run : Run sideBySide trace pair) (steps : sideBySide.step pair exchange next) :
    exchange.Same ↔ ¬ pair.Misreads exchange.call :=
  ((Alike.of_reachable run.reachable).exchange steps).2

section Constructor

def started : Pair where
  table _ := none
  cached := rooted
  direct := rooted
  raw _ := none

def written : Pair where
  table := Function.update (fun _ => none) 1 (some ⟨[], .MODIFIED, ⟨0, 0, 0, 0, 0⟩⟩)
  cached := rooted
  direct := Function.update rooted 1 (some ⟨.T_DIR, []⟩)
  raw := Function.update (fun _ => none) 1 (some 0)

def putRoot : Exchange := ⟨.put 1 [], .done .OK, some (.done .OK)⟩

def askRoot : Exchange where
  call := .getattr 1 ⟨0, 0, 0, 0, 0⟩
  cached := .attr .OK ⟨0, 0, 0, 0, 0⟩
  direct := some (.attr .OK ⟨1, 0, 0, 0, 0⟩)

theorem started_run : Run sideBySide [] started :=
  .start ⟨fun _ => rfl, rfl, fun _ => rfl⟩

theorem putRoot_step : sideBySide.step started putRoot written :=
  ⟨plainDirect 2, ⟨0, ⟨0, 0, 0, 0, 0⟩⟩, faithful_plain 2, uniform_plain 2, by
    simp [Pair.Allows, putRoot, started, rooted], rfl, rfl, rfl⟩

theorem askRoot_step : sideBySide.step written askRoot written :=
  ⟨plainDirect 2, ⟨0, ⟨0, 0, 0, 0, 0⟩⟩, faithful_plain 2, uniform_plain 2, by
    simp [Pair.Allows, askRoot, written], rfl, rfl, rfl⟩

theorem plain_step (pair : Pair) (call : Call) (allowed : pair.Allows (plainDirect 3).toRpc call) :
    ∃ exchange next, exchange.call = call ∧ sideBySide.step pair exchange next := by
  let env : Ambient := ⟨0, ⟨0, 0, 0, 0, 0⟩⟩
  let cached := ExtentClientCache.call (plainDirect 3).toRpc env pair.table pair.cached call
  let direct := ExtentClient.call (plainDirect 3) pair.direct call
  exact ⟨⟨call, cached.2, direct.2⟩, ⟨cached.1.1, cached.1.2, direct.1, pair.rawAfter env call⟩, rfl,
    plainDirect 3, env, faithful_plain 3, uniform_plain 3, allowed, rfl, rfl, rfl⟩

theorem answers_same_iff_two_files : ∃ trace pair exchange next, Run sideBySide trace pair ∧
    (pair.cached 2).map File.data = some many ∧ pair.cached 3 = some ⟨.T_FILE, []⟩ ∧
    (pair.direct 3).map File.data = some [104, 105] ∧ sideBySide.step pair exchange next ∧
    exchange.call = .getattr 2 ⟨0, 0, 0, 0, 0⟩ ∧ exchange.Same := by
  let env : Ambient := ⟨0, ⟨0, 0, 0, 0, 0⟩⟩
  have server := faithful_plain 3
  have uniform := uniform_plain 3
  have one := started_run.extend (show sideBySide.step started ⟨.create .T_FILE 0, _, _⟩ ⟨_, _, _, _⟩
    from ⟨plainDirect 2, env, faithful_plain 2, uniform_plain 2, ⟨2, rfl, rfl⟩, rfl, rfl, rfl⟩)
  have both := one.extend (show sideBySide.step _ ⟨.create .T_FILE 0, _, _⟩ ⟨_, _, _, _⟩ from
    ⟨plainDirect 3, env, server, uniform, ⟨3, rfl, rfl⟩, rfl, rfl, rfl⟩)
  have long := both.extend (show sideBySide.step _ ⟨.put 2 many, _, _⟩ ⟨_, _, _, _⟩ from
    ⟨plainDirect 3, env, server, uniform, Option.some_ne_none _, rfl, rfl, rfl⟩)
  have short := long.extend (show sideBySide.step _ ⟨.put 3 [104, 105], _, _⟩ ⟨_, _, _, _⟩ from
    ⟨plainDirect 3, env, server, uniform, Option.some_ne_none _, rfl, rfl, rfl⟩)
  have flushed := short.extend (show sideBySide.step _ ⟨.flush 2, _, _⟩ ⟨_, _, _, _⟩ from
    ⟨plainDirect 3, env, server, uniform, Option.some_ne_none _, rfl, rfl, rfl⟩)
  have read := flushed.extend (show sideBySide.step _ ⟨.get 2 [], _, _⟩ ⟨_, _, _, _⟩ from
    ⟨plainDirect 3, env, server, uniform, Option.some_ne_none _, rfl, rfl, rfl⟩)
  obtain ⟨trace, pair, run, one, two, three, live, raw⟩ : ∃ trace pair, Run sideBySide trace pair ∧
      (pair.cached 2).map File.data = some many ∧ pair.cached 3 = some ⟨.T_FILE, []⟩ ∧
      (pair.direct 3).map File.data = some [104, 105] ∧ pair.direct 2 ≠ none ∧ pair.raw 2 = none :=
    ⟨_, _, read, rfl, rfl, rfl, Option.some_ne_none _, rfl⟩
  obtain ⟨exchange, next, asks, steps⟩ := plain_step pair (.getattr 2 ⟨0, 0, 0, 0, 0⟩) live
  refine ⟨trace, pair, exchange, next, run, one, two, three, steps, asks,
    (answers_same_iff run steps).mpr ?_⟩
  rw [asks]
  rintro ⟨junk, file, set, _⟩
  cases raw.symm.trans set

/-- After the put of `yfs_client`'s constructor the root has no type. -/
theorem answers_differ : ∃ trace pair exchange next, Run sideBySide trace pair ∧
    sideBySide.step pair exchange next ∧ ¬ exchange.Same := by
  refine ⟨[] ++ [putRoot], written, askRoot, written, .extend started_run putRoot_step,
    askRoot_step, fun same => ?_⟩
  have type : (0 : UInt32) = 1 := (same _ rfl).2.1
  exact absurd type (by decide)

end Constructor

end NaiveFileSystem.Cache
