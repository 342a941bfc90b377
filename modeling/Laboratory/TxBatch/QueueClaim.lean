import Mathlib.Data.List.Nodup
import Mathlib.Logic.Function.Basic
import Mathlib.Logic.Relation

/-!
# Claiming jobs from a table

`tools/run_queue_claim_bench_nodrop.sh`: workers take jobs from `bench_queue`, each in a transaction
of its own that logs the job's payload in `bench_processed_log` and sets the job to `DONE`.  The two
modes differ in the `SELECT` that chooses the job: `good` locks it and skips jobs that others have
locked, `bad` only reads.

A row that a transaction has inserted carries its writer until the transaction ends, and a row that
it has updated has a new version beside the committed one.  `COMMIT` publishes both, and a rollback
takes both back.  A session that fails or is killed is rolled back, and so is one that has hit a
duplicate key, since the client stops at the first error.  A statement that has to wait is no step.

The columns that hold times are left out.
-/

namespace Laboratory.TxBatch

inductive JobState where
  | READY
  | PROCESSING
  | DONE
  deriving DecidableEq, Repr

inductive ClaimMode where
  | good
  | bad
  deriving DecidableEq, Repr

/-- A row of `bench_queue`; a worker's owner name is its number. -/
structure JobRow where
  state : JobState := .READY
  owner : Option ℕ := none
  deriving DecidableEq, Repr

/-- A row of `bench_processed_log`.  Which worker has inserted it is not in the table; `writer` is
the transaction that has inserted it and has not ended. -/
structure LogRow (τ : Type) where
  dedupe_key : String
  worker : ℕ
  writer : Option τ
  deriving DecidableEq, Repr

/-- The row once the transaction `t` has committed. -/
def LogRow.published {τ : Type} [DecidableEq τ] (row : LogRow τ) (t : τ) : LogRow τ :=
  if row.writer = some t then { row with writer := none } else row

/-- What does not change in a run: the jobs, in the order of their ids, their payloads, and the
worker that a session belongs to. -/
structure Bench (τ : Type) where
  ids : List ℕ
  sorted : ids.Pairwise (· < ·)
  payload : ℕ → String
  distinct : ∀ i ∈ ids, ∀ j ∈ ids, payload i = payload j → i = j
  worker : τ → ℕ

/-- The last statement of the script that a session has executed. -/
inductive Place where
  | idle
  | started
  | selected
  | inserted
  | updated
  deriving DecidableEq, Repr

/-- A session: its place, and the variables `@id` and `@payload`. -/
structure Session where
  place : Place := .idle
  id : Option ℕ := none
  payload : Option String := none
  deriving DecidableEq, Repr

/-- The database and the sessions.  `queue` has the committed rows, `version` those that an open
transaction has updated. -/
structure QueueDb (τ : Type) where
  queue : ℕ → JobRow := fun _ => {}
  version : ℕ → Option (τ × JobRow) := fun _ => none
  log : List (LogRow τ) := []
  lock : ℕ → Option τ := fun _ => none
  session : τ → Session := fun _ => {}

/-- The steps of a session: the statements of the script, and its end. -/
inductive Statement where
  | start
  | select
  | insert
  | update
  | commit
  | kill
  deriving DecidableEq, Repr

namespace QueueDb

variable {τ : Type} [DecidableEq τ]

/-- The committed rows of the log. -/
def committed (s : QueueDb τ) : List (LogRow τ) := s.log.filter fun row => row.writer = none

/-- The keys of the committed log. -/
def keys (s : QueueDb τ) : List String := s.committed.map LogRow.dedupe_key

def setSession (s : QueueDb τ) (t : τ) (x : Session) : QueueDb τ :=
  { s with session := Function.update s.session t x }

/-- The row of the job `i` as the transaction `t` sees it: its own version, or what is committed. -/
def read (s : QueueDb τ) (t : τ) (i : ℕ) : JobRow :=
  match s.version i with
  | some (t', row) => if t' = t then row else s.queue i
  | none => s.queue i

/-- The end of a transaction: its locks, and its rows and versions that are not committed, are
gone. -/
def finish (s : QueueDb τ) (t : τ) : QueueDb τ :=
  { s with
    version := fun i => (s.version i).filter fun v => v.1 ≠ t
    log := s.log.filter fun row => row.writer ≠ some t
    lock := fun i => if s.lock i = some t then none else s.lock i
    session := Function.update s.session t {} }

/-- Everybody sees what the transaction has written. -/
def publish (s : QueueDb τ) (t : τ) : QueueDb τ :=
  { s with
    queue := s.read t
    log := s.log.map fun row => row.published t }

/-- Whether the `SELECT` may return the job `i`. -/
def offers (mode : ClaimMode) (t : τ) (s : QueueDb τ) (i : ℕ) : Bool :=
  (s.read t i).state = .READY ∧ (mode = .good → s.lock i = none ∨ s.lock i = some t)

variable (b : Bench τ) (mode : ClaimMode)

/-- `SELECT … WHERE state = 'READY' ORDER BY id LIMIT 1`, with `FOR UPDATE SKIP LOCKED` in good
mode. -/
def select (t : τ) (s : QueueDb τ) : QueueDb τ :=
  match b.ids.find? (s.offers mode t) with
  | none => s.setSession t { place := .selected }
  | some i =>
    { s.setSession t { place := .selected, id := some i, payload := some (b.payload i) } with
      lock := if mode = .good then Function.update s.lock i (some t) else s.lock }

/-- `INSERT INTO bench_processed_log … WHERE @id IS NOT NULL`.  A row of another transaction with
the same key is waited for, a committed one is a duplicate. -/
def insert (t : τ) (s : QueueDb τ) : Option (QueueDb τ) :=
  let x := s.session t
  match x.id, x.payload with
  | some _, some key =>
    match s.log.find? fun row => row.dedupe_key = key with
    | some row => if row.writer = none ∨ row.writer = some t then some (s.finish t) else none
    | none => some
      { s.setSession t { x with place := .inserted } with
        log := s.log ++ [{ dedupe_key := key, worker := b.worker t, writer := some t }] }
  | _, _ => some (s.setSession t { x with place := .inserted })

/-- `UPDATE bench_queue SET state = 'DONE', owner = … WHERE id = @id`.  A row that another
transaction has locked is waited for. -/
def update (t : τ) (s : QueueDb τ) : Option (QueueDb τ) :=
  let x := s.session t
  match x.id with
  | some i =>
    if s.lock i ≠ none ∧ s.lock i ≠ some t then none
    else some
      { s.setSession t { x with place := .updated } with
        version := Function.update s.version i
          (some (t, { state := .DONE, owner := some (b.worker t) }))
        lock := Function.update s.lock i (some t) }
  | none => some (s.setSession t { x with place := .updated })

/-- `COMMIT`. -/
def commit (t : τ) (s : QueueDb τ) : QueueDb τ := (s.publish t).finish t

/-- **One step of the session `t`.** -/
def step (t : τ) (statement : Statement) (s : QueueDb τ) : Option (QueueDb τ) :=
  match statement, (s.session t).place with
  | .start, .idle => some (s.setSession t { place := .started })
  | .select, .started => some (select b mode t s)
  | .insert, .selected => insert b t s
  | .update, .inserted => update b t s
  | .commit, .updated => some (commit t s)
  | .kill, _ => some (s.finish t)
  | _, _ => none

/-- One step of any session. -/
def Step (s s' : QueueDb τ) : Prop := ∃ t statement, step b mode t statement s = some s'

/-- The states that runs come to from the queue that the script has reset: all jobs `READY`, and an
empty log. -/
def Reachable : QueueDb τ → Prop := Relation.ReflTransGen (Step b mode) {}

/-- The state after a list of steps. -/
def run (s : QueueDb τ) : List (τ × Statement) → Option (QueueDb τ)
  | [] => some s
  | (t, statement) :: rest => (step b mode t statement s).bind fun s' => run s' rest

variable {b mode}

/-- A list of steps that can be taken is a run. -/
theorem steps_of_run {s s' : QueueDb τ} {steps : List (τ × Statement)}
    (h : run b mode s steps = some s') : Relation.ReflTransGen (Step b mode) s s' := by
  induction steps generalizing s with
  | nil =>
    cases h
    exact .refl
  | cons x rest ih =>
    obtain ⟨s₁, hstep, h⟩ := Option.bind_eq_some_iff.mp h
    exact .head ⟨x.1, x.2, hstep⟩ (ih h)

theorem reachable_of_run (steps : List (τ × Statement)) {s : QueueDb τ}
    (h : run b mode {} steps = some s) : Reachable b mode s :=
  steps_of_run h

end QueueDb

end Laboratory.TxBatch
