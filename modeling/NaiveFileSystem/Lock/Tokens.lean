import NaiveFileSystem.Lock.System

/-!
# Conservation of tokens

Every activity carries tokens for the clients it concerns. For each client the
counts of tokens, the client's record and the server's record satisfy linear
conservation laws. This file states the laws and proves, for each way a record
changes, that the laws of its client survive together with the tokens moved.
-/

namespace NaiveFileSystem.LockSystem

open LockProtocol Pool

universe u

variable {Thread : Type u}

/-- What an activity can stand for. An acquire call is `sent`, or was answered
(`granted`, or `asked` to wait; `odd` for any other answer). A lock is `inUse` by
a thread, or being given back `before` or `after` the server has processed it. -/
inductive Token
  | sent | granted | asked | odd
  | inUse | before | after
  | retrying | revoking
  | asleep | woken | dozing
  deriving DecidableEq

@[simp] def answered : Status → Token
  | .OK => .granted
  | .RETRY => .asked
  | .RPCERR | .NOENT | .IOERR => .odd

@[simp] def GiveBack.token : GiveBack → Token
  | .unlocked | .flushing | .calling .sent => .before
  | .calling (.retrying _ _) | .calling .replied => .after

@[simp] def GiveBack.retries (client : ClientId) : GiveBack → List Token
  | .calling (.retrying front .sent) => if front = client then [.retrying] else []
  | .calling (.retrying _ .handled) | .calling .replied => []
  | .unlocked | .flushing | .calling .sent => []

/-- Tokens of an operation for the client of its own thread. -/
@[simp] def Op.own : Op → List Token
  | .entering => []
  | .waitingCond false => [.asleep]
  | .waitingCond true => [.woken]
  | .calling .sent => [.sent]
  | .calling (.revoking ret _ _) => [answered ret]
  | .calling (.replied ret) => [answered ret]
  | .waitingRetry false => [.asked, .dozing]
  | .waitingRetry true => [.asked]
  | .holding | .releasing => [.inUse]
  | .givingBack stage => [stage.token]

/-- Tokens for a client that the calls of an operation have reached. -/
@[simp] def Op.remote (client : ClientId) : Op → List Token
  | .calling (.revoking _ holder .sent) => if holder = client then [.revoking] else []
  | .calling (.revoking _ holder (.givingBack stage)) =>
    (if holder = client then [stage.token] else []) ++ stage.retries client
  | .calling (.revoking _ _ .handled) => []
  | .givingBack stage => stage.retries client
  | .calling .sent | .calling (.replied _) => []
  | .entering | .waitingCond _ | .waitingRetry _ | .holding | .releasing => []

def Activity.tokens (client : ClientId) (activity : Activity Thread) : List Token :=
  (if activity.client = client then activity.op.own else []) ++ activity.op.remote client

/-- How many tokens of each kind a client has in the pool. -/
def tally (pool : Multiset (Activity Thread)) (client : ClientId) (token : Token) : ℕ :=
  weight (fun activity => (activity.tokens client).count token) pool

def plus (own : List Token) (rest : Token → ℕ) (token : Token) : ℕ := own.count token + rest token

@[simp] theorem plus_nil (rest : Token → ℕ) : plus [] rest = rest := by
  funext token
  simp [plus]

theorem plus_append (first second : List Token) (rest : Token → ℕ) :
    plus (first ++ second) rest = plus first (plus second rest) := by
  funext token
  simp [plus, Nat.add_assoc]

theorem plus_comm (first second : List Token) (rest : Token → ℕ) :
    plus first (plus second rest) = plus second (plus first rest) := by
  funext token
  simp only [plus]
  omega

theorem tally_cons (activity : Activity Thread) (pool : Multiset (Activity Thread))
    (client : ClientId) :
    tally (activity ::ₘ pool) client = plus (activity.tokens client) (tally pool client) := by
  funext token
  exact weight_cons _ _ _

/-- Where a client stands with the server, each entry zero or one. -/
structure Standing where
  holder : ℕ
  queued : ℕ
  called : ℕ
  contended : ℕ
  queued_le : queued ≤ 1
  holder_le : holder ≤ 1
  called_le : called ≤ queued
  contended_le : contended ≤ holder

/-- The client is the recorded holder; it is queued; it is at the front and the
lock was released to it; it is the holder and others wait. -/
def standing (server : Option LockServerCache.Entry) (client : ClientId) : Standing :=
  match server with
  | none => ⟨0, 0, 0, 0, by simp, by simp, by simp, by simp⟩
  | some entry =>
    { holder := if entry.clientId = client.val then 1 else 0
      queued := if client.val ∈ entry.clientQ then 1 else 0
      called := if entry.clientId = "" ∧ entry.clientQ.head? = some client.val then 1 else 0
      contended := if entry.clientId = client.val ∧ entry.status = .WAITING then 1 else 0
      queued_le := by split <;> simp
      holder_le := by split <;> simp
      called_le := by
        split
        next front => simp [List.mem_of_head? front.2]
        next => simp
      contended_le := by
        split
        next both => simp [both.1]
        next => simp }

open LockClientCache in
/-- The conservation laws of one client. -/
structure Balanced (entry : Entry) (count : Token → ℕ) (stand : Standing) : Prop where
  acquiring : count .sent + count .granted + count .asked + count .odd =
    if entry.status = .ACQUIRING then 1 else 0
  answers : count .odd = 0
  owning : count .inUse + count .before + count .after =
    if entry.status = .LOCKED ∨ entry.status = .RELEASING then 1 else 0
  tenure : count .granted + count .inUse + count .before +
    (if entry.status = .FREE then 1 else 0) = stand.holder
  asked : count .asked ≤ stand.queued
  queued : stand.queued ≤ count .asked + count .sent
  retry : count .retrying + (if entry.retry = true then 1 else 0) + stand.queued =
    count .asked + stand.called
  revoke : count .revoking + (if entry.revoke = true then 1 else 0) + count .before +
    (if entry.status = .RELEASING then count .inUse else 0) = stand.contended
  flag : entry.revoke = true → entry.status = .ACQUIRING ∨ entry.status = .LOCKED
  cond : entry.status = .NONE ∨ entry.status = .FREE → count .asleep = 0 ∨ 0 < count .woken
  doze : count .dozing = 0 ∨ entry.retry = false

section Laws

variable {entry : LockClientCache.Entry} {rest woken : Token → ℕ} {stand : Standing}

theorem Balanced.recheck {own : List Token} (quiet : own = [] ∨ own = [.woken])
    (balanced : Balanced entry (plus own rest) stand) :
    Balanced entry.recheck.1 (plus (Op.ofNext entry.recheck.2).own rest) stand := by
  obtain ⟨revoke, retry, status⟩ := entry
  obtain ⟨h1, h2, h3, h4, h5, h6, h7, h8, h9, h10, h11⟩ := balanced
  have front := stand.called_le
  rcases quiet with rfl | rfl <;> cases status <;> cases retry <;>
    simp [plus, LockClientCache.Entry.recheck, LockClientCache.Entry.whileNotRetry, Op.ofNext]
      at h1 h2 h3 h4 h5 h6 h7 h8 h9 h10 h11 ⊢ <;>
    constructor <;> simp [plus] <;> omega

theorem Balanced.awaitRetry (balanced : Balanced entry (plus [.asked] rest) stand) :
    Balanced entry.awaitRetry.1 (plus (Op.ofNext entry.awaitRetry.2).own rest) stand := by
  obtain ⟨revoke, retry, status⟩ := entry
  obtain ⟨h1, h2, h3, h4, h5, h6, h7, h8, h9, h10, h11⟩ := balanced
  have front := stand.called_le
  cases retry <;>
    simp [plus, LockClientCache.Entry.awaitRetry, LockClientCache.Entry.whileNotRetry, Op.ofNext]
      at h1 h2 h3 h4 h5 h6 h7 h8 h9 h10 h11 ⊢ <;>
    constructor <;> simp [plus] <;> omega

theorem Balanced.reply {ret : Status} (balanced : Balanced entry (plus [answered ret] rest) stand) :
    Balanced (entry.reply ret).1 (plus (Op.ofNext (entry.reply ret).2).own rest) stand := by
  cases ret with
  | RETRY => exact balanced.awaitRetry
  | OK =>
    obtain ⟨revoke, retry, status⟩ := entry
    obtain ⟨h1, h2, h3, h4, h5, h6, h7, h8, h9, h10, h11⟩ := balanced
    cases status <;>
      simp [plus, LockClientCache.Entry.reply, Op.ofNext]
        at h1 h2 h3 h4 h5 h6 h7 h8 h9 h10 h11 ⊢
    constructor <;> simp [plus] <;> omega
  | RPCERR | NOENT | IOERR =>
    have none := balanced.answers
    simp [plus] at none

theorem Balanced.wakeCond (balanced : Balanced entry (plus [.asleep] rest) stand) :
    Balanced entry (plus [.woken] rest) stand := by
  obtain ⟨h1, h2, h3, h4, h5, h6, h7, h8, h9, h10, h11⟩ := balanced
  simp [plus] at h1 h2 h3 h4 h5 h6 h7 h8 h10 h11
  constructor <;> first | simp [plus]; omega | simp [plus, *] | exact h9

theorem Balanced.wakeRetry (balanced : Balanced entry (plus [.asked, .dozing] rest) stand) :
    Balanced entry (plus [.asked] rest) stand := by
  obtain ⟨h1, h2, h3, h4, h5, h6, h7, h8, h9, h10, h11⟩ := balanced
  simp [plus] at h1 h2 h3 h4 h5 h6 h7 h8 h10 h11
  constructor <;> first | simp [plus]; omega | simp [plus, *] | exact h9

theorem Balanced.revokeHandler {slot : Option LockClientCache.Entry}
    (balanced : Balanced (.ofSlot slot) (plus [.revoking] rest) stand) :
    Balanced (LockClientCache.revokeHandler slot).1
      (plus (if (LockClientCache.revokeHandler slot).2 then [.before] else []) rest) stand := by
  unfold LockClientCache.revokeHandler
  generalize LockClientCache.Entry.ofSlot slot = entry at balanced ⊢
  obtain ⟨revoke, retry, status⟩ := entry
  obtain ⟨h1, h2, h3, h4, h5, h6, h7, h8, h9, h10, h11⟩ := balanced
  have waits := stand.contended_le
  have single := stand.holder_le
  cases status <;> cases revoke <;> simp [plus] at h1 h2 h3 h4 h5 h6 h7 h8 h9 h10 h11 ⊢ <;>
    constructor <;> first | omega | simp [plus]; omega | simp [plus]

theorem Balanced.release {slot : Option LockClientCache.Entry}
    (balanced : Balanced (.ofSlot slot) (plus [.inUse] rest) stand) :
    (∃ freed : LockClientCache.Entry, LockClientCache.release slot = (some freed, .returns true) ∧
      freed.status = .FREE ∧
      ((rest .asleep = 0 ∨ 0 < rest .woken) → Balanced freed rest stand)) ∨
    ∃ kept : LockClientCache.Entry, LockClientCache.release slot = (some kept, .givesBack) ∧
      Balanced kept (plus [.before] rest) stand := by
  cases slot with
  | none =>
    have none := balanced.owning
    simp [plus] at none
  | some entry =>
    obtain ⟨revoke, retry, status⟩ := entry
    obtain ⟨h1, h2, h3, h4, h5, h6, h7, h8, h9, h10, h11⟩ := balanced
    have waits := stand.contended_le
    have single := stand.holder_le
    cases revoke with
    | true =>
      refine .inr ⟨⟨false, retry, status⟩, rfl, ?_⟩
      cases status <;> cases retry <;> simp [plus] at h1 h2 h3 h4 h5 h6 h7 h8 h9 h10 h11 <;>
        constructor <;> first | omega | simp [plus]; omega | simp [plus]
    | false =>
      cases status with
      | NONE | FREE | ACQUIRING => simp [plus] at h3
      | LOCKED =>
        refine .inl ⟨⟨false, retry, .FREE⟩, rfl, rfl, fun settled => ?_⟩
        cases retry <;> simp [plus] at h1 h2 h3 h4 h5 h6 h7 h8 h9 h10 h11 <;>
          constructor <;> first | omega | simp; omega | simp
      | RELEASING =>
        refine .inr ⟨⟨false, retry, .RELEASING⟩, rfl, ?_⟩
        cases retry <;> simp [plus] at h1 h2 h3 h4 h5 h6 h7 h8 h9 h10 h11 <;>
          constructor <;> first | omega | simp [plus]; omega | simp [plus]

theorem Balanced.givenBack {slot : Option LockClientCache.Entry}
    (balanced : Balanced (.ofSlot slot) (plus [.after] rest) stand)
    (settled : rest .asleep = 0 ∨ 0 < rest .woken) :
    Balanced (LockClientCache.givenBack slot) rest stand := by
  unfold LockClientCache.givenBack
  generalize LockClientCache.Entry.ofSlot slot = entry at balanced ⊢
  obtain ⟨revoke, retry, status⟩ := entry
  obtain ⟨h1, h2, h3, h4, h5, h6, h7, h8, h9, h10, h11⟩ := balanced
  have waits := stand.contended_le
  cases status <;> cases revoke <;> simp [plus] at h1 h2 h3 h4 h5 h6 h7 h8 h9 h10 h11 ⊢ <;>
    constructor <;> first | omega | simp; omega | simp

theorem Balanced.retryHandler {slot : Option LockClientCache.Entry}
    (balanced : Balanced (.ofSlot slot) (plus [.retrying] rest) stand)
    (settled : rest .dozing = 0) :
    Balanced (LockClientCache.retryHandler slot) rest stand := by
  unfold LockClientCache.retryHandler
  generalize LockClientCache.Entry.ofSlot slot = entry at balanced ⊢
  obtain ⟨revoke, retry, status⟩ := entry
  obtain ⟨h1, h2, h3, h4, h5, h6, h7, h8, h9, h10, h11⟩ := balanced
  have front := stand.called_le
  have single := stand.queued_le
  cases retry <;> simp [plus] at h1 h2 h3 h4 h5 h6 h7 h8 h9 h10 h11 ⊢ <;>
    constructor <;> first | omega | simp; omega

theorem Balanced.exchangeWaiters {count final : Token → ℕ} (balanced : Balanced entry count stand)
    (busy : 0 < count .inUse + count .before + count .after)
    (same : ∀ token, token ≠ .asleep → token ≠ .woken → final token = count token) :
    Balanced entry final stand := by
  obtain ⟨h1, h2, h3, h4, h5, h6, h7, h8, h9, h10, h11⟩ := balanced
  have taken : entry.status = .LOCKED ∨ entry.status = .RELEASING := by
    by_contra neither
    simp [neither] at h3
    omega
  constructor <;> first
    | assumption
    | simp only [same _, ne_eq, reduceCtorEq, not_false_eq_true]; assumption
    | rcases taken with status | status <;> simp [status]

theorem Balanced.wakeDozing {count final : Token → ℕ} (balanced : Balanced entry count stand)
    (awake : final .dozing = 0) (same : ∀ token, token ≠ .dozing → final token = count token) :
    Balanced entry final stand := by
  obtain ⟨h1, h2, h3, h4, h5, h6, h7, h8, h9, h10, h11⟩ := balanced
  constructor <;> first
    | assumption
    | exact .inl awake
    | simp only [same _, ne_eq, reduceCtorEq, not_false_eq_true]; assumption

/-! Moves of the server, as one client sees them. -/

theorem Balanced.restand {other : Standing} {count : Token → ℕ}
    (balanced : Balanced entry count stand)
    (holder : other.holder = stand.holder) (queued : other.queued = stand.queued)
    (called : other.called = stand.called) (contended : other.contended = stand.contended) :
    Balanced entry count other := by
  obtain ⟨h1, h2, h3, h4, h5, h6, h7, h8, h9, h10, h11⟩ := balanced
  constructor <;> first
    | assumption
    | simp only [holder, queued, called, contended]; assumption

theorem Balanced.sent_idle (balanced : Balanced entry (plus [.sent] rest) stand) :
    stand.holder = 0 ∧ stand.contended = 0 ∧ rest .asked = 0 ∧ stand.called = stand.queued := by
  obtain ⟨h1, h2, h3, h4, h5, h6, h7, h8, h9, h10, h11⟩ := balanced
  have waits := stand.contended_le
  have front := stand.called_le
  obtain ⟨revoke, retry, status⟩ := entry
  cases status <;> simp [plus] at h1 h2 h3 h4 h5 h6 h7 h8
  omega

theorem Balanced.granted {other : Standing} {more : ℕ}
    (balanced : Balanced entry (plus [.sent] rest) stand) (holder : other.holder = 1)
    (queued : other.queued = 0) (called : other.called = 0) (contended : other.contended = more) :
    Balanced entry (plus (.granted :: List.replicate more .revoking) rest) other := by
  obtain ⟨idle, quiet, fresh, front⟩ := balanced.sent_idle
  obtain ⟨h1, h2, h3, h4, h5, h6, h7, h8, h9, h10, h11⟩ := balanced
  obtain ⟨revoke, retry, status⟩ := entry
  cases status <;> cases retry <;> simp [plus] at h1 h2 h3 h4 h5 h6 h7 h8 h9 h10 h11
  · constructor <;> simp [plus, List.count_replicate] <;> omega
  · omega

theorem Balanced.enqueued {other : Standing} (balanced : Balanced entry (plus [.sent] rest) stand)
    (fresh : stand.queued = 0) (holder : other.holder = stand.holder) (queued : other.queued = 1)
    (called : other.called = 0) (contended : other.contended ≤ other.holder) :
    Balanced entry (plus [.asked] rest) other := by
  obtain ⟨idle, quiet, _, front⟩ := balanced.sent_idle
  obtain ⟨h1, h2, h3, h4, h5, h6, h7, h8, h9, h10, h11⟩ := balanced
  obtain ⟨revoke, retry, status⟩ := entry
  cases status <;> cases retry <;> simp [plus] at h1 h2 h3 h4 h5 h6 h7 h8 h9 h10 h11 <;>
    constructor <;> simp [plus] <;> omega

theorem Balanced.contended {other : Standing} (balanced : Balanced entry rest stand)
    (quiet : stand.contended = 0) (holder : other.holder = stand.holder)
    (queued : other.queued = stand.queued) (called : other.called = stand.called)
    (contended : other.contended = stand.holder) :
    Balanced entry (plus (List.replicate stand.holder .revoking) rest) other := by
  obtain ⟨h1, h2, h3, h4, h5, h6, h7, h8, h9, h10, h11⟩ := balanced
  obtain ⟨revoke, retry, status⟩ := entry
  constructor <;> simp [plus, List.count_replicate] at * <;> omega

theorem Balanced.serverRelease {other : Standing} {more : ℕ}
    (balanced : Balanced entry (plus (List.replicate stand.holder .before) rest) stand)
    (contended : stand.contended = stand.holder) (uncalled : stand.called = 0)
    (holder : other.holder = 0) (quiet : other.contended = 0)
    (queued : other.queued = stand.queued) (called : other.called = more) :
    Balanced entry (plus (List.replicate stand.holder .after ++ List.replicate more .retrying) rest)
      other := by
  obtain ⟨h1, h2, h3, h4, h5, h6, h7, h8, h9, h10, h11⟩ := balanced
  obtain ⟨revoke, retry, status⟩ := entry
  constructor <;> simp [plus, List.count_replicate] at * <;> omega

end Laws

end NaiveFileSystem.LockSystem
