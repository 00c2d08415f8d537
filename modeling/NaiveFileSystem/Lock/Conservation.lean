import NaiveFileSystem.Lock.Tokens

/-!
# The protocol conserves its tokens

One lemma for each kind of step, then every reachable slice obeys the laws. The
server's steps move the standing of several clients at once; all other steps
touch the record of one client.
-/

namespace NaiveFileSystem.LockSystem

open LockProtocol Transition Pool

universe u

variable {Thread : Type u}

/-- The laws of every client, and a sound server record. -/
structure Conserved (state : Slice Thread) : Prop where
  wellFormed : ∀ entry, state.server = some entry → entry.WellFormed
  addressed : ∀ entry, state.server = some entry → entry.Addressed
  balanced : ∀ client, Balanced (.ofSlot (state.client client)) (tally state.pool client)
    (standing state.server client)

theorem Conserved.init : Conserved (⟨none, fun _ => none, 0⟩ : Slice Thread) where
  wellFormed := by simp
  addressed := by simp
  balanced client := by constructor <;> simp [standing, tally]

section Steps

variable {server : Option LockServerCache.Entry}
  {client : ClientId → Option LockClientCache.Entry} {rest woken : Multiset (Activity Thread)}

theorem Conserved.exchange {first second : Activity Thread}
    (conserved : Conserved ⟨server, client, first ::ₘ rest⟩)
    (same : ∀ other, first.tokens other = second.tokens other) :
    Conserved ⟨server, client, second ::ₘ rest⟩ := by
  refine ⟨conserved.wellFormed, conserved.addressed, fun other => ?_⟩
  have laws := conserved.balanced other
  rw [tally_cons] at laws ⊢
  rwa [← same]

theorem Conserved.section_of {pool : Multiset (Activity Thread)} {owner : ClientId}
    {slot : Option LockClientCache.Entry}
    (conserved : Conserved ⟨server, client, pool⟩) {next : Multiset (Activity Thread)}
    (others : ∀ other, other ≠ owner → tally next other = tally pool other)
    (own : Balanced (.ofSlot (client owner)) (tally pool owner) (standing server owner) →
      Balanced (.ofSlot slot) (tally next owner) (standing server owner)) :
    Conserved ⟨server, Function.update client owner slot, next⟩ := by
  refine ⟨conserved.wellFormed, conserved.addressed, fun other => ?_⟩
  have laws := conserved.balanced other
  by_cases same : other = owner
  · subst same
    simpa using own laws
  · simpa [Function.update_of_ne same, others other same] using laws

theorem tokens_of_ne {caller other : ClientId} {thread : Thread} {op : Op}
    (different : other ≠ caller) :
    Activity.tokens other ⟨caller, thread, op⟩ = op.remote other := by
  simp [Activity.tokens, Ne.symm different]

theorem tokens_self {caller : ClientId} {thread : Thread} {op : Op} :
    Activity.tokens caller ⟨caller, thread, op⟩ = op.own ++ op.remote caller := by
  simp [Activity.tokens]

@[simp] theorem remote_ofNext (other : ClientId) (next : LockClientCache.AcquireNext) :
    (Op.ofNext next).remote other = [] := by
  cases next <;> rfl

theorem GiveBack.token_cases (stage : GiveBack) : stage.token = .before ∨ stage.token = .after := by
  match stage with
  | .unlocked | .flushing | .calling .sent => exact .inl rfl
  | .calling .replied | .calling (.retrying _ _) => exact .inr rfl

theorem Op.remote_subset (op : Op) (other : ClientId) :
    ∀ token ∈ op.remote other, token = .revoking ∨ token = .retrying ∨ token = .before ∨
      token = .after := by
  have retried : ∀ stage : GiveBack, ∀ token ∈ stage.retries other, token = .retrying := by
    intro stage
    match stage with
    | .unlocked | .flushing | .calling .sent | .calling .replied
    | .calling (.retrying _ .handled) => simp
    | .calling (.retrying _ .sent) =>
      simp only [GiveBack.retries]
      split <;> simp
  intro token member
  match op with
  | .calling (.revoking _ holder .sent) =>
    simp only [Op.remote] at member
    split at member <;> simp_all
  | .calling (.revoking _ holder (.givingBack stage)) =>
    rcases List.mem_append.mp member with own | later
    · split at own
      next => rcases stage.token_cases with token | token <;> simp_all
      next => simp at own
    · exact .inr (.inl (retried stage token later))
  | .givingBack stage => exact .inr (.inl (retried stage token member))
  | .calling (.revoking _ _ .handled) | .calling .sent | .calling (.replied _) => simp at member
  | .entering | .waitingCond _ | .waitingRetry _ | .holding | .releasing => simp at member

theorem remote_of_resumes {op : Op} {body} (resumes : op.resumes = some body)
    (other : ClientId) : op.remote other = [] := by
  cases op with
  | calling call => cases call <;> simp_all [Op.resumes]
  | _ => simp_all [Op.resumes]

theorem Balanced.resume {op : Op}
    {body : LockClientCache.Entry → LockClientCache.Entry × LockClientCache.AcquireNext}
    (resumes : op.resumes = some body) {entry : LockClientCache.Entry} {count : Token → ℕ}
    {stand : Standing} (balanced : Balanced entry (plus op.own count) stand) :
    Balanced (body entry).1 (plus (Op.ofNext (body entry).2).own count) stand := by
  match op, resumes with
  | .entering, rfl => exact balanced.recheck (.inl rfl)
  | .waitingCond true, rfl => exact balanced.recheck (.inr rfl)
  | .calling (.replied _), rfl => exact balanced.reply
  | .waitingRetry true, rfl => exact balanced.awaitRetry

theorem Conserved.resume {caller : ClientId} {thread : Thread} {op : Op}
    {body : LockClientCache.Entry → LockClientCache.Entry × LockClientCache.AcquireNext}
    (resumes : op.resumes = some body)
    (conserved : Conserved ⟨server, client, ⟨caller, thread, op⟩ ::ₘ rest⟩)
    {entry : LockClientCache.Entry} {next : LockClientCache.AcquireNext}
    (ran : body (.ofSlot (client caller)) = (entry, next)) :
    Conserved ⟨server, Function.update client caller (some entry),
      ⟨caller, thread, .ofNext next⟩ ::ₘ rest⟩ := by
  refine conserved.section_of (fun other different => ?_) fun laws => ?_
  · rw [tally_cons, tally_cons, tokens_of_ne different, tokens_of_ne different, remote_ofNext,
      remote_of_resumes resumes]
  · simp only [tally_cons, tokens_self, remote_of_resumes resumes, remote_ofNext,
      List.append_nil] at laws ⊢
    have done := laws.resume resumes
    rwa [ran] at done

theorem Conserved.wake {caller : ClientId} {thread : Thread} {asleep awake : Op}
    (moves : ∀ {entry count stand}, Balanced entry (plus asleep.own count) stand →
      Balanced entry (plus awake.own count) stand)
    (quiet : ∀ other, asleep.remote other = [] ∧ awake.remote other = [])
    (conserved : Conserved ⟨server, client, ⟨caller, thread, asleep⟩ ::ₘ rest⟩) :
    Conserved ⟨server, client, ⟨caller, thread, awake⟩ ::ₘ rest⟩ := by
  refine ⟨conserved.wellFormed, conserved.addressed, fun other => ?_⟩
  have laws := conserved.balanced other
  simp only [tally_cons] at laws ⊢
  by_cases same : other = caller
  · subst same
    simp only [tokens_self, (quiet other).1, (quiet other).2, List.append_nil] at laws ⊢
    exact moves laws
  · rwa [tokens_of_ne same, (quiet other).1, ← (quiet other).2, ← tokens_of_ne same] at laws

theorem Conserved.revokeHandler {caller holder : ClientId} {thread : Thread} {ret : Status}
    (conserved : Conserved
      ⟨server, client, ⟨caller, thread, .calling (.revoking ret holder .sent)⟩ ::ₘ rest⟩)
    {entry : LockClientCache.Entry} {gives : Bool}
    (ran : LockClientCache.revokeHandler (client holder) = (entry, gives)) :
    Conserved ⟨server, Function.update client holder (some entry), ⟨caller, thread,
      .calling (.revoking ret holder (if gives then .givingBack .unlocked else .handled))⟩
        ::ₘ rest⟩ := by
  refine conserved.section_of (fun other different => ?_) fun laws => ?_
  · rw [tally_cons, tally_cons]
    cases gives <;> simp [Activity.tokens, Ne.symm different]
  · rw [tally_cons] at laws ⊢
    have prior : Balanced (.ofSlot (client holder)) (plus [.revoking]
        (plus (if caller = holder then [answered ret] else []) (tally rest holder)))
        (standing server holder) := by
      rw [plus_comm, ← plus_append]
      simpa [Activity.tokens] using laws
    have handled := prior.revokeHandler
    rw [ran, plus_comm, ← plus_append] at handled
    cases gives <;> simpa [Activity.tokens] using handled

/-! ## Releasing and giving back -/

theorem Op.asleep_mem_own {op : Op} : Token.asleep ∈ op.own ↔ op = .waitingCond false := by
  match op with
  | .calling .sent | .entering | .holding | .releasing => simp
  | .waitingCond signalled | .waitingRetry signalled => cases signalled <;> simp
  | .calling (.revoking ret _ _) | .calling (.replied ret) => cases ret <;> simp
  | .givingBack stage => rcases stage.token_cases with token | token <;> simp only [own, token] <;> simp

theorem Op.dozing_mem_own {op : Op} : Token.dozing ∈ op.own ↔ op = .waitingRetry false := by
  match op with
  | .calling .sent | .entering | .holding | .releasing => simp
  | .waitingCond signalled | .waitingRetry signalled => cases signalled <;> simp
  | .calling (.revoking ret _ _) | .calling (.replied ret) => cases ret <;> simp
  | .givingBack stage => rcases stage.token_cases with token | token <;> simp only [own, token] <;> simp

theorem Activity.mem_tokens {activity : Activity Thread} {other : ClientId} {token : Token}
    (present : token ∈ activity.tokens other) (local_ : token = .asleep ∨ token = .dozing) :
    activity.client = other ∧ token ∈ activity.op.own := by
  rcases List.mem_append.mp present with own | remote
  · split at own
    next same => exact ⟨same, own⟩
    next => simp at own
  · have moved := activity.op.remote_subset other token remote
    rcases local_ with rfl | rfl <;> simp at moved

theorem SignalCond.tally_eq {owner : ClientId} (signal : SignalCond owner rest woken)
    (other : ClientId) (token : Token)
    (untouched : other ≠ owner ∨ (token ≠ .asleep ∧ token ≠ .woken)) :
    tally woken other token = tally rest other token := by
  apply signal.weight_eq
  intro sleeper
  rcases untouched with different | ⟨notAsleep, notWoken⟩
  · rw [tokens_of_ne different, tokens_of_ne different]
    rfl
  · simp [Activity.tokens]
    split <;> simp [Ne.symm notAsleep, Ne.symm notWoken]

theorem SignalCond.settled {owner : ClientId} (signal : SignalCond owner rest woken) :
    tally woken owner .asleep = 0 ∨ 0 < tally woken owner .woken := by
  refine signal.awake_or_none (fun activity charged => ?_) fun sleeper => ?_
  · obtain ⟨caller, thread, op⟩ := activity
    obtain ⟨rfl, own⟩ := Activity.mem_tokens (List.count_pos_iff.mp charged) (.inl rfl)
    exact ⟨thread, congrArg (Activity.mk _ thread) (Op.asleep_mem_own.mp own)⟩
  · simp [Activity.tokens]

theorem Conserved.releaseReturn {caller : ClientId} {thread : Thread}
    (conserved : Conserved ⟨server, client, ⟨caller, thread, .releasing⟩ ::ₘ rest⟩)
    {slot : Option LockClientCache.Entry} {signal : Bool}
    (ran : LockClientCache.release (client caller) = (slot, .returns signal))
    (signals : if signal then SignalCond caller rest woken else woken = rest) :
    Conserved ⟨server, Function.update client caller slot, woken⟩ := by
  have own : ∀ pool : Multiset (Activity Thread),
      tally (⟨caller, thread, .releasing⟩ ::ₘ pool) caller = plus [.inUse] (tally pool caller) :=
    fun pool => by rw [tally_cons]; simp [Activity.tokens]
  have start := conserved.balanced caller
  rw [own] at start
  have signalled : SignalCond caller rest woken := by
    rcases start.release with ⟨freed, done, _⟩ | ⟨kept, done, _⟩
    · cases done.symm.trans ran
      simpa using signals
    · cases done.symm.trans ran
  refine conserved.section_of (fun other different => ?_) fun laws => ?_
  · funext token
    rw [signalled.tally_eq other token (.inl different), tally_cons, tokens_of_ne different]
    simp [plus]
  · rw [own] at laws
    have settled : Balanced (.ofSlot (client caller)) (plus [.inUse] (tally woken caller))
        (standing server caller) := by
      apply laws.exchangeWaiters (by simp [plus])
      intro token notAsleep notWoken
      simp only [plus, signalled.tally_eq caller token (.inr ⟨notAsleep, notWoken⟩)]
    rcases settled.release with ⟨freed, done, _, free⟩ | ⟨kept, done, _⟩
    · cases done.symm.trans ran
      exact free signalled.settled
    · cases done.symm.trans ran

theorem Conserved.releaseGiveBack {caller : ClientId} {thread : Thread}
    (conserved : Conserved ⟨server, client, ⟨caller, thread, .releasing⟩ ::ₘ rest⟩)
    {slot : Option LockClientCache.Entry}
    (ran : LockClientCache.release (client caller) = (slot, .givesBack)) :
    Conserved ⟨server, Function.update client caller slot,
      ⟨caller, thread, .givingBack .unlocked⟩ ::ₘ rest⟩ := by
  refine conserved.section_of (fun other different => ?_) fun laws => ?_
  · rw [tally_cons, tally_cons, tokens_of_ne different, tokens_of_ne different]
    rfl
  · rw [tally_cons, tokens_self] at laws ⊢
    rcases laws.release with ⟨freed, done, _⟩ | ⟨kept, done, balanced⟩
    · cases done.symm.trans ran
    · cases done.symm.trans ran
      exact balanced

/-- Tokens of the thread that waits for a handler. -/
def Host.base (other : ClientId) : Host Thread → List Token
  | .releaser _ _ => []
  | .handler client _ ret _ => if client = other then [answered ret] else []

theorem Host.base_asleep (host : Host Thread) (other : ClientId) :
    (host.base other).count .asleep = 0 := by
  cases host with
  | releaser => rfl
  | handler client thread ret holder =>
    simp only [base]
    split <;> cases ret <;> rfl

theorem Host.running_dozing (host : Host Thread) (other : ClientId) :
    (host.base other ++ if host.giver = other then [Token.after] else []).count Token.dozing = 0 := by
  cases host with
  | releaser =>
    simp only [base, List.nil_append]
    split <;> rfl
  | handler client thread ret holder =>
    simp only [base, List.count_append]
    split <;> split <;> cases ret <;> rfl

theorem Host.tokens_run (host : Host Thread) (stage : GiveBack) (other : ClientId) :
    (host.run stage).tokens other =
      host.base other ++ (if host.giver = other then [stage.token] else []) ++
        stage.retries other := by
  cases host with
  | releaser => rfl
  | handler => exact (List.append_assoc _ _ _).symm

theorem Host.tally_finish (host : Host Thread) (pool : Multiset (Activity Thread))
    (other : ClientId) : tally (host.finish + pool) other = plus (host.base other) (tally pool other) := by
  cases host with
  | releaser => simp [Host.finish, Host.base]
  | handler =>
    simp only [Host.finish, Multiset.singleton_add, tally_cons, Host.base, Activity.tokens]
    simp

theorem Conserved.advance {host : Host Thread} {stage next : GiveBack}
    (token : stage.token = next.token) (retries : ∀ other, stage.retries other = next.retries other)
    (conserved : Conserved ⟨server, client, host.run stage ::ₘ rest⟩) :
    Conserved ⟨server, client, host.run next ::ₘ rest⟩ :=
  conserved.exchange fun other => by rw [host.tokens_run, host.tokens_run, token, retries]

theorem Conserved.givenBack {host : Host Thread} (signal : SignalCond host.giver rest woken)
    (conserved : Conserved ⟨server, client, host.run (.calling .replied) ::ₘ rest⟩) :
    Conserved ⟨server, Function.update client host.giver
      (some (LockClientCache.givenBack (client host.giver))), host.finish + woken⟩ := by
  refine conserved.section_of (fun other different => ?_) fun laws => ?_
  · rw [tally_cons, host.tokens_run, host.tally_finish, if_neg (Ne.symm different)]
    funext token
    simp [plus, signal.tally_eq other token (.inl different)]
  · rw [tally_cons, host.tokens_run, if_pos rfl] at laws
    rw [host.tally_finish]
    have settled : Balanced (.ofSlot (client host.giver))
        (plus (host.base host.giver ++ [.after]) (tally woken host.giver))
        (standing server host.giver) := by
      apply laws.exchangeWaiters (by simp [plus])
      intro token notAsleep notWoken
      simp [plus, signal.tally_eq host.giver token (.inr ⟨notAsleep, notWoken⟩)]
    rw [plus_append, plus_comm] at settled
    apply settled.givenBack
    have awake := signal.settled
    simp only [plus, host.base_asleep]
    omega

theorem SignalRetry.tally_eq {owner : ClientId} (signal : SignalRetry owner rest woken)
    (other : ClientId) (token : Token) (untouched : other ≠ owner ∨ token ≠ .dozing) :
    tally woken other token = tally rest other token := by
  apply signal.weight_eq
  intro sleeper
  rcases untouched with different | notDozing
  · rw [tokens_of_ne different, tokens_of_ne different]
    rfl
  · by_cases same : owner = other <;> simp [Activity.tokens, same, List.count_cons, Ne.symm notDozing]

theorem tally_dozing_le (pool : Multiset (Activity Thread)) (owner : ClientId) :
    tally pool owner .dozing ≤ tally pool owner .asked := by
  refine weight_le_weight (fun activity => ?_) pool
  obtain ⟨caller, thread, op⟩ := activity
  by_cases dozes : Token.dozing ∈ Activity.tokens owner ⟨caller, thread, op⟩
  · obtain ⟨rfl, own⟩ := Activity.mem_tokens dozes (.inr rfl)
    rw [Op.dozing_mem_own] at own
    simp only at own
    subst own
    simp [Activity.tokens]
  · rw [List.count_eq_zero_of_not_mem dozes]
    exact Nat.zero_le _

/-- A retry wakes the only thread that can be waiting for it. -/
theorem SignalRetry.nobodyDozes {owner : ClientId} (signal : SignalRetry owner rest woken)
    (single : tally rest owner .asked ≤ 1) : tally woken owner .dozing = 0 := by
  cases signal with
  | one sleeper others =>
    have bound := tally_dozing_le others owner
    simp only [tally_cons, plus] at single ⊢
    simp [Activity.tokens] at single ⊢
    omega
  | nobody none =>
    refine weight_eq_zero fun activity member => List.count_eq_zero.mpr fun dozes => ?_
    obtain ⟨caller, thread, op⟩ := activity
    obtain ⟨rfl, own⟩ := Activity.mem_tokens dozes (.inr rfl)
    rw [Op.dozing_mem_own] at own
    simp only at own
    exact none thread (own ▸ member)

theorem Conserved.retryHandler {host : Host Thread} {front : ClientId}
    (signal : SignalRetry front rest woken)
    (conserved : Conserved ⟨server, client, host.run (.calling (.retrying front .sent)) ::ₘ rest⟩) :
    Conserved ⟨server, Function.update client front
      (some (LockClientCache.retryHandler (client front))),
      host.run (.calling (.retrying front .handled)) ::ₘ woken⟩ := by
  refine conserved.section_of (fun other different => ?_) fun laws => ?_
  · rw [tally_cons, tally_cons, host.tokens_run, host.tokens_run]
    funext token
    simp [plus, signal.tally_eq other token (.inl different), Ne.symm different]
  · rw [tally_cons, host.tokens_run] at laws ⊢
    simp only [GiveBack.retries, GiveBack.token, if_pos, List.append_nil] at laws ⊢
    rw [plus_append, plus_comm] at laws
    have own := host.running_dozing front
    have single : tally rest front .asked ≤ 1 := by
      have asked := laws.asked
      have bound := (standing server front).queued_le
      simp only [plus] at asked
      omega
    have settled : Balanced (.ofSlot (client front)) (plus [.retrying]
        (plus (host.base front ++ if host.giver = front then [.after] else []) (tally woken front)))
        (standing server front) := by
      refine laws.wakeDozing ?_ fun token notDozing => ?_
      · simp only [plus, own, signal.nobodyDozes single]
        rfl
      · simp only [plus, signal.tally_eq front token (.inr notDozing)]
    apply settled.retryHandler
    simp only [plus, own, signal.nobodyDozes single]

/-! ## The server -/

theorem safebind_eq (address : String) (client : ClientId) :
    safebind address = some client ↔ address = client.val := by
  constructor
  · intro bound
    simp only [safebind] at bound
    split at bound
    next => exact congrArg Subtype.val (Option.some.inj bound)
    next => simp at bound
  · rintro rfl
    exact safebind_val client

theorem tokens_ofAcquired (caller other : ClientId) (thread : Thread)
    (done : LockServerCache.Acquired) :
    Activity.tokens other ⟨caller, thread, .calling (.ofAcquired done)⟩ =
      (if caller = other then [answered done.ret] else []) ++
        if done.revoke.bind safebind = some other then [.revoking] else [] := by
  cases address : done.revoke.bind safebind with
  | none => simp [Activity.tokens, AcquireCall.ofAcquired, address]
  | some holder => simp [Activity.tokens, AcquireCall.ofAcquired, address]

theorem Conserved.sent {caller : ClientId} {thread : Thread}
    (conserved : Conserved ⟨server, client, ⟨caller, thread, .calling .sent⟩ ::ₘ rest⟩) :
    Balanced (.ofSlot (client caller)) (plus [.sent] (tally rest caller))
      (standing server caller) := by
  have laws := conserved.balanced caller
  rwa [tally_cons, tokens_self] at laws

theorem Conserved.acquire_caller {caller : ClientId} {thread : Thread}
    (conserved : Conserved ⟨server, client, ⟨caller, thread, .calling .sent⟩ ::ₘ rest⟩)
    {done : LockServerCache.Acquired}
    (taken : LockServerCache.acquireEntry caller.val server = some done) :
    Balanced (.ofSlot (client caller))
      (plus (answered done.ret :: if done.revoke.bind safebind = some caller then [.revoking] else [])
        (tally rest caller)) (standing (some done.entry) caller) := by
  have laws := conserved.sent
  have idle := laws.sent_idle
  rcases LockServerCache.acquireEntry_cases caller.val conserved.wellFormed with
    ⟨rfl, known⟩ | ⟨entry, rfl, branch⟩
  · cases known.symm.trans taken
    exact @Balanced.granted _ _ _ _ 0 laws (by simp [standing]) (by simp [standing])
      (by simp [standing, caller.property]) (by simp [standing])
  · have wf := conserved.wellFormed entry rfl
    have addressed := conserved.addressed entry rfl
    obtain ⟨clientId, clientQ, clientS, status⟩ := entry
    simp only at wf addressed branch
    rcases branch with ⟨rfl, known⟩ | ⟨rfl, rfl, known⟩ | ⟨queueRest, rfl, rfl, known⟩ |
      ⟨front, queueRest, rfl, rfl, different, listed, known⟩ |
      ⟨front, queueRest, rfl, rfl, fresh, known⟩ <;> cases known.symm.trans taken
    · have empty : clientQ = [] := by
        by_contra filled
        simpa using wf.waiting_iff.mpr filled
      subst empty
      exact @Balanced.granted _ _ _ _ 0 laws (by simp [standing]) (by simp [standing])
        (by simp [standing]) (by simp [standing])
    · have real : clientId ≠ "" := addressed.locked rfl
      have foreign : clientId ≠ caller.val := fun held => by simp [standing, held] at idle
      have unbound : safebind clientId ≠ some caller := by simp [safebind_eq, foreign]
      simp only [Option.bind_some, unbound, if_false]
      exact laws.enqueued (by simp [standing]) (by simp [standing]) (by simp [standing])
        (by simp [standing, real]) (Standing.contended_le _)
    · have distinct : caller.val ∉ queueRest := (List.nodup_cons.mp wf.nodup).1
      by_cases last : queueRest = []
      · subst last
        exact @Balanced.granted _ _ _ _ 0 laws (by simp [standing]) (by simp [standing])
          (by simp [standing]) (by simp [standing])
      · simp only [last, if_false, Option.bind_some, safebind_val, if_true]
        exact @Balanced.granted _ _ _ _ 1 laws (by simp [standing])
          (by simp [standing, distinct]) (by simp [standing, caller.property])
          (by simp [standing])
    · -- A queued client whose call is on its way was told to come.
      simp [standing, List.mem_of_ne_of_mem (Ne.symm different) listed, different] at idle
    · have first : front ≠ caller.val := fun here => fresh (by simp [here])
      exact laws.enqueued (by simp [standing, fresh]) (by simp [standing]) (by simp [standing])
        (by simp [standing, first]) (Standing.contended_le _)

theorem Conserved.acquire_other {caller other : ClientId} {thread : Thread}
    (conserved : Conserved ⟨server, client, ⟨caller, thread, .calling .sent⟩ ::ₘ rest⟩)
    {done : LockServerCache.Acquired} (different : caller ≠ other)
    (taken : LockServerCache.acquireEntry caller.val server = some done) :
    Balanced (.ofSlot (client other))
      (plus (if done.revoke.bind safebind = some other then [.revoking] else [])
        (tally rest other)) (standing (some done.entry) other) := by
  have idle := conserved.sent.sent_idle
  have unequal := Subtype.coe_ne_coe.mpr different
  have laws := conserved.balanced other
  rw [tally_cons, tokens_of_ne different.symm] at laws
  simp only [Op.remote, plus_nil] at laws
  rcases LockServerCache.acquireEntry_cases caller.val conserved.wellFormed with
    ⟨rfl, known⟩ | ⟨entry, rfl, branch⟩
  · cases known.symm.trans taken
    simp only [Option.bind_none, reduceCtorEq, if_false, plus_nil]
    exact laws.restand (by simp [standing, unequal]) (by simp [standing]) (by simp [standing])
      (by simp [standing])
  · have wf := conserved.wellFormed entry rfl
    have addressed := conserved.addressed entry rfl
    obtain ⟨clientId, clientQ, clientS, status⟩ := entry
    simp only at wf addressed branch
    rcases branch with ⟨rfl, known⟩ | ⟨rfl, rfl, known⟩ | ⟨queueRest, rfl, rfl, known⟩ |
      ⟨front, queueRest, rfl, rfl, apart, listed, known⟩ |
      ⟨front, queueRest, rfl, rfl, fresh, known⟩ <;> cases known.symm.trans taken
    · have nobody : clientId = "" := wf.free rfl
      have empty : clientQ = [] := by
        by_contra filled
        simpa using wf.waiting_iff.mpr filled
      subst nobody empty
      simp only [Option.bind_none, reduceCtorEq, if_false, plus_nil]
      exact laws.restand (by simp [standing, unequal, Ne.symm other.property])
        (by simp [standing]) (by simp [standing]) (by simp [standing])
    · have real : clientId ≠ "" := addressed.locked rfl
      have revoked : (if clientId = other.val then [Token.revoking] else []) =
          List.replicate (standing (some ⟨clientId, [], clientS, .LOCKED⟩) other).holder
            .revoking := by
        simp only [standing]
        split <;> rfl
      simp only [Option.bind_some, safebind_eq]
      rw [revoked]
      exact laws.contended (by simp [standing]) (by simp [standing])
        (by simp [standing, Ne.symm unequal]) (by simp [standing, real]) (by simp [standing])
    · have called : clientId = "" := by
        by_contra held
        simp [standing, held] at idle
      subst called
      have untold : (if queueRest = [] then none else some caller.val).bind safebind ≠
          some other := by
        split <;> simp [different]
      simp only [untold, if_false, plus_nil]
      exact laws.restand (by simp [standing, unequal, Ne.symm other.property])
        (by simp [standing, Ne.symm unequal]) (by simp [standing, unequal, caller.property])
        (by simp [standing, unequal, Ne.symm other.property])
    · simp [standing, List.mem_of_ne_of_mem (Ne.symm apart) listed, apart] at idle
    · simp only [Option.bind_none, reduceCtorEq, if_false, plus_nil]
      exact laws.restand (by simp [standing]) (by simp [standing, Ne.symm unequal])
        (by simp [standing]) (by simp [standing])

theorem Conserved.serverAcquire {caller : ClientId} {thread : Thread}
    (conserved : Conserved ⟨server, client, ⟨caller, thread, .calling .sent⟩ ::ₘ rest⟩)
    {done : LockServerCache.Acquired}
    (taken : LockServerCache.acquireEntry caller.val server = some done) :
    Conserved ⟨some done.entry, client, ⟨caller, thread, .calling (.ofAcquired done)⟩ ::ₘ rest⟩ := by
  obtain ⟨known, found, wellFormed⟩ :=
    LockServerCache.acquireEntry_wellFormed caller.val conserved.wellFormed
  cases found.symm.trans taken
  refine ⟨fun entry same => Option.some.inj same ▸ wellFormed, fun entry same =>
    Option.some.inj same ▸ LockServerCache.acquireEntry_addressed caller.property
      conserved.wellFormed conserved.addressed taken, fun other => ?_⟩
  simp only [tally_cons, tokens_ofAcquired]
  by_cases same : caller = other
  · subst same
    simpa only [if_true, List.singleton_append] using conserved.acquire_caller taken
  · simpa only [if_neg same, List.nil_append] using conserved.acquire_other same taken

theorem Conserved.awaited {pool : Multiset (Activity Thread)} {giver : ClientId}
    (conserved : Conserved ⟨server, client, pool⟩) (giving : 0 < tally pool giver .before) :
    ∃ front queue clientS, server = some ⟨giver.val, front :: queue, clientS, .WAITING⟩ ∧
      front ≠ "" := by
  have revoke := (conserved.balanced giver).revoke
  rcases server with _ | ⟨clientId, clientQ, clientS, status⟩
  · simp only [standing] at revoke
    omega
  have held : clientId = giver.val ∧ status = .WAITING := by
    by_contra not
    simp only [standing, not, if_false] at revoke
    omega
  obtain ⟨rfl, rfl⟩ := held
  rcases clientQ with _ | ⟨front, queue⟩
  · simpa using (conserved.wellFormed _ rfl).waiting_iff
  · exact ⟨front, queue, clientS, rfl, (conserved.addressed _ rfl).queue front (by simp)⟩

theorem Host.tally_run_before {host : Host Thread} {stage : GiveBack} (early : stage.token = .before) :
    0 < tally (host.run stage ::ₘ rest) host.giver .before := by
  rw [tally_cons, host.tokens_run, early]
  simp only [plus, if_pos, List.count_append, List.count_singleton_self]
  omega

theorem Conserved.serverRelease {host : Host Thread}
    (conserved : Conserved ⟨server, client, host.run (.calling .sent) ::ₘ rest⟩) :
    Conserved ⟨(LockServerCache.releaseEntry host.giver.val server).entry, client,
      host.run (.calling (.ofReleased (LockServerCache.releaseEntry host.giver.val server)))
        ::ₘ rest⟩ := by
  refine ⟨LockServerCache.releaseEntry_wellFormed _ conserved.wellFormed,
    LockServerCache.releaseEntry_addressed _ conserved.addressed, fun other => ?_⟩
  have laws := conserved.balanced other
  obtain ⟨front, queue, clientS, rfl, real⟩ := conserved.awaited (Host.tally_run_before rfl)
  obtain ⟨front, rfl⟩ : ∃ id : ClientId, id.val = front := ⟨⟨front, real⟩, rfl⟩
  simp only [LockServerCache.releaseEntry, ne_eq, not_true_eq_false, if_false, List.headD_cons,
    ReleaseCall.ofReleased, Option.bind_some, safebind_val] at laws ⊢
  rw [tally_cons, host.tokens_run] at laws ⊢
  generalize old : standing (some ⟨host.giver.val, front.val :: queue, clientS, .WAITING⟩) other =
    stand at laws
  have giver : ∀ token : Token,
      (if host.giver = other then [token] else []) = List.replicate stand.holder token := by
    intro token
    simp only [← old, standing, Subtype.val_inj]
    split <;> rfl
  have called : (if front = other then [Token.retrying] else []) =
      List.replicate (if front = other then 1 else 0) .retrying := by
    split <;> rfl
  have prior : Balanced (.ofSlot (client other)) (plus (List.replicate stand.holder .before)
      (plus (host.base other) (tally rest other))) stand := by
    rw [plus_comm, ← plus_append, ← giver]
    simpa using laws
  simp only [GiveBack.token, GiveBack.retries, giver, called, List.append_assoc]
  rw [plus_append, plus_comm]
  exact prior.serverRelease (by simp [← old, standing])
    (by simp [← old, standing, host.giver.property]) (by simp [standing, Ne.symm other.property])
    (by simp [standing, Ne.symm other.property]) (by simp [← old, standing])
    (by simp [standing, Subtype.val_inj])

end Steps

theorem Conserved.step {state next : Slice Thread} {event : Event Thread}
    (conserved : Conserved state) (step : Step state event next) : Conserved next := by
  cases step with
  | call server client pool caller thread =>
    refine ⟨conserved.wellFormed, conserved.addressed, fun other => ?_⟩
    simpa [tally_cons, Activity.tokens] using conserved.balanced other
  | resume _ _ _ _ _ resumes ran => exact conserved.resume resumes ran
  | wakeCond => exact conserved.wake Balanced.wakeCond fun _ => ⟨rfl, rfl⟩
  | wakeRetry => exact conserved.wake Balanced.wakeRetry fun _ => ⟨rfl, rfl⟩
  | serverAcquire _ _ _ _ _ taken => exact conserved.serverAcquire taken
  | revokeHandler _ _ _ _ _ _ _ ran => exact conserved.revokeHandler ran
  | revokeReply | releaseCall => exact conserved.exchange fun other => rfl
  | releaseReturn _ _ _ _ ran signals => exact conserved.releaseReturn ran signals
  | releaseGiveBack _ _ _ _ _ ran => exact conserved.releaseGiveBack ran
  | doreleaseStart | doreleaseEnd | retryReply =>
    exact Conserved.advance (by rfl) (by intro other; rfl) conserved
  | serverRelease _ _ _ _ done => exact done ▸ conserved.serverRelease
  | retryHandler _ _ _ _ signal => exact conserved.retryHandler signal
  | givenBack _ _ _ signal => exact conserved.givenBack signal

theorem conserved_of_reachable {state : Slice Thread}
    (reachable : Reachable (slice Thread) state) : Conserved state := by
  refine reachable.invariant ?_ fun _ _ _ conserved step => conserved.step step
  rintro _ rfl
  exact .init

/-- In the whole system, every lock conserves its tokens. -/
theorem conserved_of_system {state : LockId → Slice Thread}
    (reachable : Reachable (system Thread) state) (lid : LockId) : Conserved (state lid) :=
  conserved_of_reachable (reachable.component lid)

end NaiveFileSystem.LockSystem
