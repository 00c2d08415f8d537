import NaiveFileSystem.Lock.Tenure

/-!
# The protocol as a lock layer

Above the protocol a lock has an owner, whose threads take it one after the other,
and an owner that flushed before the next one comes. A grant on its way to a thread
is not seen there: the grantee owns the lock when its first thread returns.
-/

namespace NaiveFileSystem.LockSystem

open LockProtocol Transition Pool

universe u

variable {Thread : Type u}

/-- A lock as its users see it; `leaving` means flushed, and not yet released. -/
structure Layer (Thread : Type u) where
  owner : Option ClientId
  leaving : Bool
  holder : Option Thread

inductive Layer.Step : Layer Thread → Event Thread → Layer Thread → Prop
  | silent (layer) : Step layer .silent layer
  | acquireCalled (layer client thread) : Step layer (.acquireCalled client thread) layer
  | granted (layer client) : Step layer (.granted client) layer
  | doreleaseStart (layer client) : Step layer (.doreleaseStart client) layer
  | acquired {owner client thread} : owner = some client ∨ owner = none →
      Step ⟨owner, false, none⟩ (.acquired client thread) ⟨some client, false, some thread⟩
  | releaseCalled (client thread) :
      Step ⟨some client, false, some thread⟩ (.releaseCalled client thread)
        ⟨some client, false, none⟩
  | doreleaseEnd (client) :
      Step ⟨some client, false, none⟩ (.doreleaseEnd client) ⟨some client, true, none⟩
  | released (client) :
      Step ⟨some client, true, none⟩ (.released client) ⟨none, false, none⟩

section Inversion

variable {layer after : Layer Thread} {client : ClientId} {thread : Thread}

theorem Layer.Step.of_acquired (step : layer.Step (.acquired client thread) after) :
    layer.leaving = false ∧ layer.holder = none ∧
      (layer.owner = some client ∨ layer.owner = none) ∧
        after = ⟨some client, false, some thread⟩ := by
  cases step with
  | acquired owner => exact ⟨rfl, rfl, owner, rfl⟩

theorem Layer.Step.of_releaseCalled (step : layer.Step (.releaseCalled client thread) after) :
    layer = ⟨some client, false, some thread⟩ ∧ after = ⟨some client, false, none⟩ := by
  cases step
  exact ⟨rfl, rfl⟩

theorem Layer.Step.of_doreleaseEnd (step : layer.Step (.doreleaseEnd client) after) :
    layer = ⟨some client, false, none⟩ ∧ after = ⟨some client, true, none⟩ := by
  cases step
  exact ⟨rfl, rfl⟩

theorem Layer.Step.of_released (step : layer.Step (.released client) after) :
    layer = ⟨some client, true, none⟩ ∧ after = ⟨none, false, none⟩ := by
  cases step
  exact ⟨rfl, rfl⟩

/-- The events of which the users of a lock see nothing. -/
def Event.Hidden : Event Thread → Prop
  | .silent | .acquireCalled _ _ | .granted _ | .doreleaseStart _ => True
  | .acquired _ _ | .releaseCalled _ _ | .doreleaseEnd _ | .released _ => False

theorem Layer.Step.of_hidden {event : Event Thread} (step : layer.Step event after)
    (hidden : event.Hidden) : after = layer := by
  cases step with
  | silent | acquireCalled | granted | doreleaseStart => rfl
  | acquired | releaseCalled | doreleaseEnd | released => exact hidden.elim

end Inversion

/-- The answer to `client` is on its way, and none of its threads had the lock since. -/
def Promised (slice : Slice Thread) (client : ClientId) : Prop :=
  0 < tally slice.pool client .granted

inductive Layer.In (slice : Slice Thread) : Phase Thread → Layer Thread → Prop
  | free : In slice .free ⟨none, false, none⟩
  | promised {client} : Promised slice client → In slice (.tenure client) ⟨none, false, none⟩
  | tenure (client) : In slice (.tenure client) ⟨some client, false, none⟩
  | held (client thread) : In slice (.held client thread) ⟨some client, false, some thread⟩
  | flushing (client) : In slice (.flushing client) ⟨some client, false, none⟩
  | flushed (client) : In slice (.flushed client) ⟨some client, true, none⟩

/-- The slice is seen as the layer. -/
def Provides (slice : Slice Thread) (layer : Layer Thread) : Prop :=
  ∃ phase, Shows slice phase ∧ layer.In slice phase

/-! ## A grant stays on its way -/

section Grants

variable {server : Option LockServerCache.Entry}
  {client : ClientId → Option LockClientCache.Entry} {rest woken : Multiset (Activity Thread)}

theorem tally_le {first second : Activity Thread} {owner : ClientId} {token : Token}
    (fewer : (first.tokens owner).count token ≤ (second.tokens owner).count token)
    (others : tally rest owner token ≤ tally woken owner token) :
    tally (first ::ₘ rest) owner token ≤ tally (second ::ₘ woken) owner token := by
  rw [tally_cons, tally_cons, plus, plus]
  exact Nat.add_le_add fewer others

theorem resume_not_granted {op : Op}
    {body : LockClientCache.Entry → LockClientCache.Entry × LockClientCache.AcquireNext}
    (resumes : op.resumes = some body) {entry : LockClientCache.Entry}
    (stays : ∀ ret, (body entry).2 ≠ .returns ret) : Token.granted ∉ op.own := by
  match op, resumes with
  | .entering, _ | .waitingCond true, _ | .waitingRetry true, _ => simp
  | .calling (.replied .OK), rfl => exact absurd rfl (stays .OK)
  | .calling (.replied .RETRY), _ | .calling (.replied .RPCERR), _
  | .calling (.replied .NOENT), _ | .calling (.replied .IOERR), _ => simp

theorem count_granted (activity : Activity Thread) (owner : ClientId) :
    (activity.tokens owner).count .granted =
      if activity.client = owner then activity.op.own.count .granted else 0 := by
  have none : (activity.op.remote owner).count .granted = 0 := by
    refine List.count_eq_zero.mpr fun present => ?_
    have moved := activity.op.remote_subset owner _ present
    simp at moved
  rw [Activity.tokens, List.count_append, none, Nat.add_zero]
  split <;> rfl

theorem Host.count_granted (host : Host Thread) (stage next : GiveBack) (owner : ClientId) :
    ((host.run stage).tokens owner).count .granted =
      ((host.run next).tokens owner).count .granted := by
  have early : ∀ stage : GiveBack, ([stage.token] : List Token).count .granted = 0 := by
    intro stage
    rcases stage.token_cases with token | token <;> rw [token] <;> rfl
  rw [LockSystem.count_granted, LockSystem.count_granted]
  cases host with
  | releaser => simp only [Host.run, Op.own, early]
  | handler => rfl

theorem Host.finish_granted (host : Host Thread) (stage : GiveBack) (pool : Multiset (Activity Thread))
    (owner : ClientId) : tally (host.run stage ::ₘ pool) owner .granted =
      tally (host.finish + pool) owner .granted := by
  have base : ((host.run stage).tokens owner).count .granted = (host.base owner).count .granted := by
    have idle : (stage.retries owner).count .granted = 0 := by
      match stage with
      | .unlocked | .flushing | .calling .sent | .calling .replied
      | .calling (.retrying _ .handled) => rfl
      | .calling (.retrying front .sent) =>
        simp only [GiveBack.retries]
        split <;> rfl
    rw [host.tokens_run, List.count_append, List.count_append, idle]
    rcases stage.token_cases with token | token <;> rw [token] <;> split <;> rfl
  rw [tally_cons, host.tally_finish, plus, plus, base]

theorem Promised.step {slice next : Slice Thread} {owner : ClientId} {event : Event Thread}
    (promised : Promised slice owner) (step : Step slice event next)
    (others : ∀ thread, event ≠ .acquired owner thread) : Promised next owner := by
  refine lt_of_lt_of_le promised ?_
  cases step with
  | call server client pool caller thread =>
    rw [tally_cons]
    exact Nat.le_add_left _ _
  | resume server client rest caller thread resumes ran =>
    rename_i op body entry move
    refine tally_le ?_ (le_refl _)
    rw [count_granted, count_granted]
    split
    next same =>
      subst same
      have stays : ∀ ret, (body (.ofSlot (client caller))).2 ≠ .returns ret := by
        intro ret returns
        rw [ran] at returns
        cases returns
        exact others thread rfl
      rw [List.count_eq_zero_of_not_mem (resume_not_granted resumes stays)]
      exact Nat.zero_le _
    next => exact Nat.zero_le _
  | wakeCond | wakeRetry | serverAcquire | releaseCall | releaseGiveBack =>
    refine tally_le ?_ (le_refl _)
    rw [count_granted, count_granted]
    split <;> simp
  | revokeHandler server client rest caller thread ret holder ran =>
    refine tally_le ?_ (le_refl _)
    rw [count_granted, count_granted]
    exact le_refl _
  | revokeReply =>
    refine tally_le ?_ (le_refl _)
    rw [count_granted, count_granted]
    exact le_refl _
  | releaseReturn server client caller thread ran signals =>
    rename_i slot signal rest woken
    have same : tally woken owner .granted = tally rest owner .granted := by
      cases signal
      · exact congrArg (tally · owner .granted) signals
      · exact SignalCond.tally_eq signals owner _ (.inr (by simp))
    rw [tally_cons, plus, same, count_granted]
    split <;> simp
  | doreleaseStart server client rest host | doreleaseEnd server client rest host =>
    exact tally_le (host.count_granted _ _ owner).le (le_refl _)
  | serverRelease server client rest host | retryReply server client rest front host =>
    exact tally_le (host.count_granted _ _ owner).le (le_refl _)
  | retryHandler server client front host signal =>
    exact tally_le (host.count_granted _ _ owner).le (signal.tally_eq owner _ (.inr (by simp))).ge
  | givenBack server client host signal =>
    rw [host.finish_granted, host.tally_finish, host.tally_finish, plus, plus,
      signal.tally_eq owner _ (.inr (by simp))]

end Grants

/-! ## The protocol provides the layer -/

theorem promised_of_granted {slice next : Slice Thread} {event : Event Thread} {owner : ClientId}
    (step : Step slice event next) (granted : event = .granted owner) : Promised next owner := by
  cases step with
  | serverAcquire server client rest caller thread taken =>
    rename_i done
    split at granted
    next ok =>
      cases granted
      rw [Promised, tally_cons, plus, count_granted, if_pos rfl]
      have own : (Op.own (.calling (.ofAcquired done))).count .granted = 1 := by
        simp only [AcquireCall.ofAcquired]
        split <;> simp [ok]
      simp only [own]
      omega
    next => cases granted
  | resume server client rest caller thread resumes ran =>
    rename_i op body entry move
    cases move <;> cases granted
  | _ => cases granted

theorem Promised.not_given {slice next : Slice Thread} {event : Event Thread} {owner : ClientId}
    (promised : Promised slice owner) (conserved : Conserved slice)
    (step : Step slice event next) : event ≠ .doreleaseStart owner := by
  intro starts
  cases step with
  | doreleaseStart server client rest host =>
    cases starts
    have tenure := (conserved.balanced host.giver).tenure
    have single := (standing server host.giver).holder_le
    have before : 0 < tally (host.run .unlocked ::ₘ rest) host.giver .before := by
      rw [tally_cons, plus, host.tokens_run, if_pos rfl]
      simp only [GiveBack.token, List.count_append, List.count_singleton_self]
      omega
    simp only [Promised] at promised tenure
    omega
  | resume server client rest caller thread resumes ran =>
    rename_i op body entry move
    cases move <;> cases starts
  | serverAcquire =>
    split at starts <;> cases starts
  | _ => cases starts

/-- Every step of the protocol is one of the layer. -/
theorem Provides.step {slice next : Slice Thread} {event : Event Thread} {layer : Layer Thread}
    (conserved : Conserved slice) (provides : Provides slice layer)
    (step : Step slice event next) :
    ∃ after, layer.Step event after ∧ Provides next after := by
  obtain ⟨phase, shows_, inside⟩ := provides
  obtain ⟨after, moves, shown⟩ := shows_.step conserved step
  have stays : (∀ owner thread, event ≠ .acquired owner thread) → layer.In next phase := by
    intro others
    cases inside with
    | free => exact .free
    | promised promised => exact .promised (promised.step step (others _))
    | tenure client => exact .tenure client
    | held client thread => exact .held client thread
    | flushing client => exact .flushing client
    | flushed client => exact .flushed client
  cases moves with
  | silent => exact ⟨layer, .silent layer, phase, shown, stays (by simp)⟩
  | acquireCalled _ client thread =>
    exact ⟨layer, .acquireCalled layer client thread, phase, shown, stays (by simp)⟩
  | granted client =>
    cases inside with
    | free => exact ⟨_, .granted _ client, _, shown, .promised (promised_of_granted step rfl)⟩
  | acquired client thread =>
    cases inside with
    | promised => exact ⟨_, .acquired (.inr rfl), _, shown, .held client thread⟩
    | tenure => exact ⟨_, .acquired (.inl rfl), _, shown, .held client thread⟩
  | releaseCalled client thread =>
    cases inside with
    | held => exact ⟨_, .releaseCalled client thread, _, shown, .tenure client⟩
  | doreleaseStart client =>
    cases inside with
    | promised promised => exact absurd rfl (promised.not_given conserved step)
    | tenure => exact ⟨_, .doreleaseStart _ client, _, shown, .flushing client⟩
  | doreleaseEnd client =>
    cases inside with
    | flushing => exact ⟨_, .doreleaseEnd client, _, shown, .flushed client⟩
  | released client =>
    cases inside with
    | flushed => exact ⟨_, .released client, _, shown, .free⟩

theorem Activity.eq_holding {activity : Activity Thread} {client : ClientId} {thread : Thread}
    (shown : activity.phase = some (.held client thread)) : activity = ⟨client, thread, .holding⟩ := by
  have ofStage : ∀ (giver : ClientId) (stage : GiveBack),
      Activity.phase.ofStage giver stage ≠ some (.held client thread) := by
    intro giver stage shown
    match stage, shown with
    | .flushing, shown | .calling .sent, shown => cases shown
  obtain ⟨caller, worker, op⟩ := activity
  match op, shown with
  | .holding, rfl => rfl
  | .givingBack stage, shown => exact absurd shown (ofStage caller stage)
  | .calling (.revoking _ holder (.givingBack stage)), shown => exact absurd shown (ofStage holder stage)

theorem Provides.holding {slice : Slice Thread} {owner : Option ClientId} {leaving : Bool}
    {thread : Thread} (provides : Provides slice ⟨owner, leaving, some thread⟩) :
    ∃ client, owner = some client ∧ ⟨client, thread, .holding⟩ ∈ slice.pool := by
  obtain ⟨phase, shows_, inside⟩ := provides
  cases inside with
  | held client =>
    have member : Phase.held client thread ∈ phases slice.pool := by
      rw [show phases slice.pool = {.held client thread} from shows_]
      exact Multiset.mem_singleton_self _
    obtain ⟨activity, inside, shown⟩ := (Multiset.mem_filterMap _ _).mp member
    exact ⟨client, rfl, activity.eq_holding shown ▸ inside⟩

theorem Provides.unowned {slice : Slice Thread} {layer : Layer Thread} (provides : Provides slice layer)
    (conserved : Conserved slice) (free : ∀ client, (standing slice.server client).holder = 0) :
    layer.owner = none := by
  have quiet : ∀ activity ∈ slice.pool, activity.phase = none := by
    intro activity member
    obtain ⟨rest, split⟩ := Multiset.exists_cons_of_mem member
    cases shown : activity.phase with
    | none => rfl
    | some phase =>
      obtain ⟨server, table, pool⟩ := slice
      obtain rfl : pool = activity ::ₘ rest := split
      obtain ⟨owner, _, holder, _⟩ := conserved.phase_unique shown
      rw [free owner] at holder
      cases holder
  have silent : phases slice.pool = 0 := by
    refine Multiset.eq_zero_of_forall_notMem fun phase member => ?_
    obtain ⟨activity, inside, shown⟩ := (Multiset.mem_filterMap _ _).mp member
    cases (quiet activity inside).symm.trans shown
  obtain ⟨phase, shows_, inside⟩ := provides
  cases inside with
  | free | promised => rfl
  | tenure client =>
    have holder := shows_.2
    rw [free client] at holder
    cases holder
  | held | flushing | flushed =>
    rw [show phases slice.pool = {_} from shows_] at silent
    exact absurd silent (Multiset.singleton_ne_zero _)

theorem releaseCall_of_mem {slice : Slice Thread} {client : ClientId} {thread : Thread}
    (member : ⟨client, thread, .holding⟩ ∈ slice.pool) :
    ∃ next, Step slice (.releaseCalled client thread) next := by
  obtain ⟨server, table, pool⟩ := slice
  obtain ⟨rest, split⟩ := Multiset.exists_cons_of_mem member
  obtain rfl : pool = _ ::ₘ rest := split
  exact ⟨_, .releaseCall server table rest client thread⟩

theorem Provides.of_holding {slice : Slice Thread} {layer : Layer Thread} {client : ClientId}
    {thread : Thread} (provides : Provides slice layer)
    (member : ⟨client, thread, .holding⟩ ∈ slice.pool) :
    layer = ⟨some client, false, some thread⟩ := by
  obtain ⟨phase, shows_, inside⟩ := provides
  have shown : Phase.held client thread ∈ phases slice.pool :=
    (Multiset.mem_filterMap _ _).mpr ⟨_, member, rfl⟩
  have only {other : Phase Thread} (single : phases slice.pool = {other}) :
      other = .held client thread := by
    rw [single, Multiset.mem_singleton] at shown
    exact shown.symm
  cases inside with
  | free | promised | tenure =>
    rw [shows_.1] at shown
    exact absurd shown (Multiset.notMem_zero _)
  | held =>
    cases only shows_
    rfl
  | flushing | flushed => cases only shows_

theorem provides_init :
    Provides (⟨none, fun _ => none, 0⟩ : Slice Thread) ⟨none, false, none⟩ :=
  ⟨.free, ⟨rfl, fun _ => rfl⟩, .free⟩

end NaiveFileSystem.LockSystem
