import Laboratory.QueueLatency.Program
import Mathlib.Data.Fintype.Sum
import Mathlib.Tactic.DeriveFintype

/-!
# Shutting a queue down

The use of a queue that the pipelines make at the end of a run: producers push for as long as they
like, one thread closes the queue once every push has returned, and every consumer pops until
`pop` returns `false`.  The stop flag of `pop` is never set; that of `push` may change at any time.
-/

namespace Laboratory.QueueLatency

namespace DrainOnClose

inductive Thread (producers consumers : ℕ) where
  | producer (k : Fin producers)
  | consumer (k : Fin consumers)
  | closer
  deriving DecidableEq, Fintype

inductive ClientLoc where
  | running
  | done
  deriving DecidableEq

inductive CloserLoc where
  | join
  | close
  | done
  deriving DecidableEq

/-- What a step is free to choose: a producer whether it pushes once more, what it pushes, and the
stop flag it sees. -/
structure Input where
  stop : Bool := false
  push : Bool := false
  ev : Event := {}
  policy : BackpressurePolicy := .block

variable {m n : ℕ}

def Loc : Thread m n → Type
  | .producer _ => ClientLoc
  | .consumer _ => ClientLoc
  | .closer => CloserLoc

/-- Whether a producer or a consumer has ended. -/
def ClientLoc.isDone : ClientLoc → Bool
  | .running => false
  | .done => true

def act (input : Input) (loc : ∀ t : Thread m n, Loc t) :
    ∀ t : Thread m n, Option (Action Unit Unit (Loc t))
  | .producer k =>
    match (loc (.producer k) : ClientLoc) with
    | .running =>
      if input.push then some (.call () (.push input.ev input.policy))
      else some (.own () ClientLoc.done)
    | .done => none
  | .consumer k =>
    match (loc (.consumer k) : ClientLoc) with
    | .running => some (.call () .pop)
    | .done => none
  | .closer =>
    match (loc .closer : CloserLoc) with
    | .join =>
      if ∀ k : Fin m, ClientLoc.isDone (loc (.producer k)) then
        some (.own () CloserLoc.close)
      else none
    | .close => some (.call () .close)
    | .done => none

def resume : ∀ t : Thread m n, Loc t → Return → Loc t
  | .producer _, l, _ => l
  | .consumer _, l, r =>
    match r with
    | .popped false _ => ClientLoc.done
    | _ => l
  | .closer, _, _ => CloserLoc.done

end DrainOnClose

open DrainOnClose in
/-- The shutdown of the queue `Q`. -/
def drainOnClose {m n : ℕ} (Q : IEventQueue (DrainOnClose.Thread m n)) :
    Program Unit (DrainOnClose.Thread m n) where
  Input := Input
  Glob := Unit
  Loc := DrainOnClose.Loc
  queue := fun _ => Q
  init := ()
  start
    | .producer _ => ClientLoc.running
    | .consumer _ => ClientLoc.running
    | .closer => CloserLoc.join
  act := fun input t _ loc => DrainOnClose.act input loc t
  stop := fun input t _ _ =>
    match t with
    | .producer _ => input.stop
    | _ => false
  resume := DrainOnClose.resume

end Laboratory.QueueLatency
