import NaiveFileSystem.Cache.Modifications
import NaiveFileSystem.Yfs.Listing
import NaiveFileSystem.Yfs.Site

/-!
# Nothing dirty without its lock

An entry that is modified or removed waits for a flush, and a client flushes an
extent when it hands over the lock with its number. Whatever the server replies,
the client of such an entry owns that lock, as long as each remove is made by the
owner of the lock of the extent it removes.
-/

namespace NaiveFileSystem.Yfs

open Extent Cache Transition Program

section Calls

variable {σ : Type} {rpc : Rpc σ} {cache : Table} {server : σ} {eid other : ExtentId}

theorem plain_update {slot : Option Entry} (plain : Plain (cache other))
    (here : other = eid → Plain slot) : Plain (Function.update cache eid slot other) := by
  by_cases same : other = eid
  · rw [same, Function.update_self]
    exact here same
  · rwa [Function.update_of_ne same]

theorem plain_copied (data : Bytes) (attr : Attr) : Plain (some ⟨data, .UPDATE, attr⟩) := by
  rintro entry ⟨⟩
  exact .inr rfl

theorem plain_bare (data : Bytes) (attr : Attr) : Plain (some ⟨data, .NONE, attr⟩) := by
  rintro entry ⟨⟩
  exact .inl rfl

theorem get_plain (env : Ambient) (buf : Bytes) (plain : Plain (cache other)) :
    Plain ((ExtentClientCache.get rpc env eid buf cache server).1.1 other) := by
  unfold ExtentClientCache.get
  cases here : cache eid with
  | none =>
    dsimp only
    split
    next => exact plain_update plain fun _ => plain_copied _ _
    next => exact plain
  | some entry =>
    dsimp only
    cases kind : entry.mState with
    | NONE =>
      dsimp only
      split
      next => exact plain_update plain fun _ => plain_copied _ _
      next => exact plain
    | UPDATE | MODIFIED =>
      refine plain_update plain ?_
      rintro rfl touched ⟨⟩
      have mild := plain entry here
      rwa [kind] at mild
    | REMOVED => exact plain

theorem getattr_plain (attr : Attr) (plain : Plain (cache other)) :
    Plain ((ExtentClientCache.getattr rpc eid attr cache server).1.1 other) := by
  unfold ExtentClientCache.getattr
  cases here : cache eid with
  | none =>
    dsimp only
    split
    next => exact plain_update plain fun _ => plain_bare _ _
    next => exact plain
  | some entry =>
    dsimp only
    cases entry.mState with
    | NONE | UPDATE | MODIFIED | REMOVED => exact plain

theorem recordCreated_plain (env : Ambient) (type : UInt32) (id : ExtentId)
    (plain : Plain (cache other)) :
    Plain (ExtentClientCache.recordCreated env type id cache other) :=
  plain_update plain fun _ => plain_bare _ _

theorem put_plain (env : Ambient) (buf : Bytes) (different : other ≠ eid)
    (plain : Plain (cache other)) : Plain ((ExtentClientCache.put env eid buf cache).1 other) := by
  unfold ExtentClientCache.put
  dsimp only
  split
  next => exact plain
  next => exact plain_update plain fun same => absurd same different

theorem remove_plain (env : Ambient) (different : other ≠ eid) (plain : Plain (cache other)) :
    Plain ((ExtentClientCache.remove env eid cache).1 other) := by
  unfold ExtentClientCache.remove
  dsimp only
  split
  next => exact plain
  next => exact plain_update plain fun same => absurd same different

/-- A flush erases the entry, since its remove has no reply. -/
theorem flush_table (rejects : Rejects rpc) :
    (ExtentClientCache.flush rpc eid cache server).1.1 = Function.update cache eid none := by
  unfold ExtentClientCache.flush
  cases here : cache eid with
  | none => exact (Table.erase_absent here).symm
  | some entry =>
    dsimp only
    cases entry.mState with
    | NONE | UPDATE | MODIFIED => rfl
    | REMOVED =>
      dsimp only
      rw [rejects server, Option.getD_none]

theorem flush_plain (rejects : Rejects rpc) (plain : other ≠ eid → Plain (cache other)) :
    Plain ((ExtentClientCache.flush rpc eid cache server).1.1 other) := by
  rw [flush_table rejects]
  by_cases same : other = eid
  · rw [same, Function.update_self]
    exact plain_none
  · rw [Function.update_of_ne same]
    exact plain same

/-- A call makes no entry dirty but that of a put or a remove. -/
theorem handle_plain (rejects : Rejects rpc) (env : Ambient) {op : Op}
    (extent : op.extent = some eid) (calm : ∀ buf, op ≠ .put other buf) (kept : op ≠ .remove other)
    (plain : Plain (cache other)) : Plain ((handle rpc env op (cache, server)).1.1 other) := by
  cases op with
  | get eid buf => exact get_plain env buf plain
  | getattr eid attr => exact getattr_plain attr plain
  | put eid buf =>
    refine put_plain env buf ?_ plain
    rintro rfl
    exact calm buf rfl
  | remove eid =>
    refine remove_plain env ?_ plain
    rintro rfl
    exact kept rfl
  | flush eid => exact flush_plain rejects fun _ => plain
  | create type id | acquire lid | release lid => cases extent

end Calls

section Runs

variable {κ ι σ : Type} [DecidableEq κ] [DecidableEq ι]

/-- A remove is made by the owner of the lock, before it is flushed to be handed over. -/
def RemovesOwned (site : Site κ ι σ) : Act κ ι σ → Prop
  | .call t (.remove eid) _ => ∀ job, site.jobs t = some job →
    site.owner eid = some job.client ∧ site.leaving eid = false
  | _ => True

/-- All runs, with any replies of the server but to a remove without an id. -/
def working : System (Site κ ι σ) (Act κ ι σ) where
  init := Site.Fresh
  step := Acts

def removing : System (Site κ ι σ) (Act κ ι σ) where
  init := working.init
  step state act next := RemovesOwned state act ∧ working.step state act next

/-- An entry for `eid` with no modification, unless the client owns the lock and is to
flush it before handing it over. -/
def CleanAt (state : Site κ ι σ) (client : κ) (eid : ExtentId) : Prop :=
  (state.owner eid = some client ∧ state.leaving eid = false) ∨ Plain (state.table client eid)

variable {state next : Site κ ι σ} {act : Act κ ι σ}

omit [DecidableEq ι] in
theorem CleanAt.worked {client worker : κ} {cache : Table} {eid : ExtentId}
    (clean : CleanAt state client eid) (owner : next.owner eid = state.owner eid)
    (leaving : next.leaving eid = state.leaving eid)
    (table : next.table = Function.update state.table worker cache)
    (kept : Plain (state.table worker eid) → client = worker → Plain (cache eid)) :
    CleanAt next client eid := by
  rcases clean with owns | plain
  · exact .inl (by rwa [owner, leaving])
  · right
    rw [table]
    by_cases same : client = worker
    · subst same
      rw [Function.update_self]
      exact kept plain rfl
    · rwa [Function.update_of_ne same]

omit [DecidableEq ι] in
theorem CleanAt.leave {client leaver : κ} {lid eid : ExtentId} {result : Table × σ}
    (clean : CleanAt state client eid) (owner : state.owner lid = some leaver)
    (erased : result.1 = Function.update (state.table leaver) lid none) :
    CleanAt { state.after leaver result with leaving := Function.update state.leaving lid true }
      client eid := by
  by_cases same : eid = lid
  · subst same
    right
    show Plain (Function.update state.table leaver result.1 client eid)
    by_cases mine : client = leaver
    · rw [mine, Function.update_self, erased, Function.update_self]
      exact plain_none
    · rw [Function.update_of_ne mine]
      rcases clean with owns | plain
      · exact absurd (Option.some.inj (owns.1.symm.trans owner)) mine
      · exact plain
  · refine clean.worked rfl (Function.update_of_ne same _ _) rfl fun plain _ => ?_
    rwa [erased, Function.update_of_ne same]

theorem cleanAt_kept (locked : Locked (fun _ => True) state) (removes : RemovesOwned state act)
    (acts : Acts state act next) (clean : ∀ client eid, CleanAt state client eid) (client : κ)
    (eid : ExtentId) : CleanAt next client eid := by
  cases acts with
  | start client' task vars free => exact clean client eid
  | finish here done => exact clean client eid
  | @acquire t job lid rest here calls free stays owner =>
    rcases clean client eid with ⟨owns, stays'⟩ | plain
    · left
      refine ⟨?_, stays'⟩
      by_cases same : eid = lid
      · subst same
        rcases owner with mine | none
        · cases mine.symm.trans owns
          exact Function.update_self _ _ _
        · cases none.symm.trans owns
      · exact (Function.update_of_ne same _ _).trans owns
    · exact .inr plain
  | release here calls => exact clean client eid
  | @call t job op rest target rpc result env here calls extent rejects ran =>
    subst ran
    -- Only a put and a remove of the extent make it dirty, and both are made by its owner.
    by_cases dirty : client = job.client ∧ ((∃ buf, op = .put eid buf) ∨ op = .remove eid)
    · obtain ⟨rfl, ⟨buf, put⟩ | rfl⟩ := dirty
      · have owned := locked.call_owned here calls (.inr (.inl put))
        exact .inl ⟨owned.owner, owned.stays⟩
      · exact .inl (removes job here)
    · exact (clean client eid).worked rfl rfl rfl fun plain same =>
        handle_plain rejects env extent (fun buf put => dirty ⟨same, .inl ⟨buf, put⟩⟩)
          (fun remove => dirty ⟨same, .inr remove⟩) plain
  | request here calls free ran => exact clean client eid
  | @record t job type arg rest ret id env here calls recording =>
    exact (clean client eid).worked rfl rfl rfl fun plain _ => recordCreated_plain env type id plain
  | @leave client' lid rpc result ret owner free stays rejects ran =>
    have erased := @flush_table σ rpc (state.table client') state.server lid rejects
    rw [ran] at erased
    exact (clean client eid).leave owner erased
  | @handOver lid leaves =>
    rcases clean client eid with ⟨owns, stays⟩ | plain
    · have different : eid ≠ lid := by
        rintro rfl
        rw [leaves] at stays
        cases stays
      exact .inl ⟨(Function.update_of_ne different _ _).trans owns,
        (Function.update_of_ne different _ _).trans stays⟩
    · exact .inr plain

theorem removing_clean (reachable : Reachable removing state) :
    Locked (fun _ => True) state ∧ ∀ client eid, CleanAt state client eid := by
  refine @Reachable.invariant _ _ removing
    (fun state => Locked (fun _ => True) state ∧ ∀ client eid, CleanAt state client eid) ?_ ?_ _
    reachable
  · intro state fresh
    refine ⟨Site.Fresh.locked fresh, fun client eid => .inr ?_⟩
    rw [Site.Fresh.table fresh]
    exact plain_none
  · rintro state act next ⟨locked, clean⟩ ⟨removes, acts⟩
    exact ⟨locked.kept (fun _ => id) (fun _ _ _ _ => trivial) (fun _ _ _ _ => trivial) acts,
      cleanAt_kept locked removes acts clean⟩

/-- The client of a modified or removed entry owns the lock of the extent, and has not
flushed it to hand the lock over. -/
theorem dirty_owned (reachable : Reachable removing state) {client : κ} {eid : ExtentId}
    {entry : Entry} (here : state.table client eid = some entry)
    (dirty : entry.mState = .MODIFIED ∨ entry.mState = .REMOVED) :
    state.owner eid = some client ∧ state.leaving eid = false := by
  rcases (removing_clean reachable).2 client eid with owns | plain
  · exact owns
  · rcases dirty with modified | removed
    · exact absurd modified (plain.not_modified here).1
    · exact absurd removed (plain.not_modified here).2

end Runs

theorem rejects_plain (pick : ExtentId) : Rejects (plain pick) := fun _ => rfl

theorem dirty_owned_joined : ∃ (state : Site Unit Unit Contents) (entry : Entry),
    Reachable removing state ∧ state.table () 1 = some entry ∧ entry.mState = .MODIFIED ∧
    state.owner 1 = some () ∧ state.leaving 1 = false := by
  let env : Ambient := ⟨0, ⟨0, 0, 0, 0, 0⟩⟩
  have begins : Reachable removing (⟨rooted, fun _ _ => none, fun _ => none, fun _ => false,
      fun _ => none, fun _ => none⟩ : Site Unit Unit Contents) :=
    ⟨[], .start ⟨fun _ _ => rfl, fun _ => rfl, fun _ => rfl, fun _ => rfl, fun _ => rfl⟩⟩
  have begun := begins.extend (show removing.step _ (.start () () (.basic .init)) _ from
    ⟨trivial, .start () (.basic .init) ⟨env.junk, 0⟩ rfl⟩)
  have taken := begun.extend (show removing.step _ (.acquire () 1) _ from
    ⟨trivial, .acquire rfl rfl rfl rfl (.inr rfl)⟩)
  have written := taken.extend (show removing.step _ (.call () (.put 1 []) (plain 2)) _ from
    ⟨trivial, .call env rfl rfl rfl (rejects_plain 2) rfl⟩)
  exact ⟨_, _, written, rfl, rfl, dirty_owned written rfl (.inl rfl)⟩

/-- An unlink leaves a removed entry whose lock its client does not own. -/
theorem removed_unowned : ∃ (state : Site Unit Unit Contents) (entry : Entry),
    Reachable working state ∧ state.table () 2 = some entry ∧ entry.mState = .REMOVED ∧
    state.owner 2 = none := by
  let env : Ambient := ⟨0, ⟨0, 0, 0, 0, 0⟩⟩
  let vars : Locals := ⟨env.junk, 0⟩
  let contents : Contents := fun id =>
    if id = 1 then some ⟨.T_DIR, textOf [([97], 2)]⟩ else if id = 2 then some ⟨.T_FILE, []⟩ else none
  obtain ⟨next, rest⟩ : ∃ next, ((YfsClient.unlinkPasses vars [97] (tokens (textOf [([97], 2)]))
      false [] >>= fun swept => YfsClient.unlinkFinish 1 swept.1 swept.2) >>= fun _ => pure () :
      Action Unit) = .call (.remove 2) next := by
    rw [tokens_textOf (by simp)]
    exact ⟨_, rfl⟩
  have begins : Reachable working (⟨contents, fun _ _ => none, fun _ => none, fun _ => false,
      fun _ => none, fun _ => none⟩ : Site Unit Unit Contents) :=
    ⟨[], .start ⟨fun _ _ => rfl, fun _ => rfl, fun _ => rfl, fun _ => rfl, fun _ => rfl⟩⟩
  have begun := begins.extend (show working.step _ (.start () () (.unlink 1 [97])) _ from
    .start () (.unlink 1 [97]) vars rfl)
  have taken := begun.extend (show working.step _ (.acquire () 1) _ from
    .acquire rfl rfl rfl rfl (.inr rfl))
  have read := taken.extend (show working.step _ (.call () (.get 1 []) (plain 3)) _ from
    .call env rfl rfl rfl (rejects_plain 3) rfl)
  have removed := read.extend (show working.step _ (.call () (.remove 2) (plain 3)) _ from
    .call env rfl rest rfl (rejects_plain 3) rfl)
  exact ⟨_, _, removed, rfl, rfl, rfl⟩

end NaiveFileSystem.Yfs
