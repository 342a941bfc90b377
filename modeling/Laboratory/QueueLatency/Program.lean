import Laboratory.QueueLatency.QueueState
import Mathlib.Algebra.GroupWithZero.Nat

/-!
# Threads that call queues

A `Program` has threads `τ` and queues `κ`.  A thread that is in no queue operation takes a step
of its own code or calls an operation; a thread inside an operation takes a step of it, or returns
from it.
-/

namespace Laboratory.QueueLatency

/-- Where there is one thread of a kind, it is thread zero. -/
scoped instance neZero_one : NeZero 1 := ⟨by decide⟩

scoped instance neZero_two : NeZero 2 := ⟨by decide⟩

variable {κ τ : Type} [DecidableEq κ] [DecidableEq τ]

/-- What a thread does next in its own code: a step that changes the variables of the program and
its place in the code, or a call. -/
inductive Action (κ Glob Loc : Type) where
  | own (g : Glob) (l : Loc)
  | call (q : κ) (c : Call)

structure Program (κ τ : Type) where
  /-- What a step depends on besides the state, such as the reading of the clock. -/
  Input : Type
  /-- The variables the threads share. -/
  Glob : Type
  /-- Where a thread stands in its code, local variables included. -/
  Loc : τ → Type
  queue : κ → IEventQueue τ
  init : Glob
  start : ∀ t, Loc t
  /-- The next action of a thread; `none` when it has ended or has to wait. -/
  act : Input → ∀ t, Glob → (∀ t, Loc t) → Option (Action κ Glob (Loc t))
  /-- The value of the stop flag that a thread has passed to the operation it is in. -/
  stop : Input → ∀ t, Glob → Loc t → Bool
  /-- Where a thread goes on when the operation it has called returns. -/
  resume : ∀ t, Loc t → Return → Loc t

namespace Program

structure State (P : Program κ τ) where
  glob : P.Glob
  loc : ∀ t, P.Loc t
  /-- The queue whose operation a thread is in. -/
  calling : τ → Option κ
  queue : ∀ q, QState (P.queue q)

/-- What the environment decides in a step: the thread that moves, its input, and how a condition
variable or the allocator behaves. -/
structure Choice (P : Program κ τ) where
  thread : τ
  input : P.Input
  spurious : Bool := false
  wake : Option τ := none
  addr : ℕ := 0

variable {P : Program κ τ}

def State.initial (P : Program κ τ) : P.State where
  glob := P.init
  loc := P.start
  calling := fun _ => none
  queue := fun q => QState.start (P.queue q)

/-- Where the thread `t` takes an action of its own code. -/
def State.perform (s : P.State) (t : τ) : Action κ P.Glob (P.Loc t) → P.State
  | .own g l => { s with glob := g, loc := Function.update s.loc t l }
  | .call q c => { s with
      calling := Function.update s.calling t (some q)
      queue := Function.update s.queue q ((s.queue q).call t c) }

/-- The thread `t` returns `r` from an operation of the queue `q`. -/
def State.return (s : P.State) (t : τ) (q : κ) (r : Return) : P.State where
  glob := s.glob
  loc := Function.update s.loc t (P.resume t (s.loc t) r)
  calling := Function.update s.calling t none
  queue := Function.update s.queue q ((s.queue q).leave t r)

/-- What a step of a queue depends on. -/
def Choice.env (c : P.Choice) (s : P.State) : Env τ where
  stop := P.stop c.input c.thread s.glob (s.loc c.thread)
  spurious := c.spurious
  wake := c.wake
  addr := c.addr

/-- **One step of the program.** -/
def step (c : P.Choice) (s : P.State) : Option P.State :=
  match s.calling c.thread with
  | none => (P.act c.input c.thread s.glob s.loc).map (s.perform c.thread)
  | some q =>
    match (s.queue q).returned c.thread with
    | some r => some (s.return c.thread q r)
    | none => ((s.queue q).step (c.env s) c.thread).map fun x =>
        { s with queue := Function.update s.queue q x }

/-- One step of the program whose choice satisfies a condition in the state it starts from. -/
def StepIf (P : Program κ τ) (ok : P.State → P.Choice → Prop) (s s' : P.State) : Prop :=
  ∃ c, ok s c ∧ P.step c s = some s'

/-- The states that runs reach in which every step satisfies the condition. -/
def ReachableIf (P : Program κ τ) (ok : P.State → P.Choice → Prop) : P.State → Prop :=
  Relation.ReflTransGen (P.StepIf ok) (State.initial P)

/-- The states that runs reach. -/
def Reachable (P : Program κ τ) : P.State → Prop :=
  P.ReachableIf fun _ _ => True

theorem ReachableIf.reachable {ok : P.State → P.Choice → Prop} {s : P.State}
    (h : P.ReachableIf ok s) : P.Reachable s :=
  Relation.ReflTransGen.mono (fun _ _ ⟨c, _, hc⟩ => ⟨c, trivial, hc⟩) _ _ h

/-- The state after a list of choices that satisfy a condition. -/
def runIf (ok : P.State → P.Choice → Prop) [∀ s c, Decidable (ok s c)] (s : P.State) :
    List P.Choice → Option P.State
  | [] => some s
  | c :: cs => if ok s c then (P.step c s).bind fun s' => runIf ok s' cs else none

/-- A run is made of steps. -/
theorem steps_of_runIf {ok : P.State → P.Choice → Prop} [∀ s c, Decidable (ok s c)]
    {s s' : P.State} {cs : List P.Choice} (h : runIf ok s cs = some s') :
    Relation.ReflTransGen (P.StepIf ok) s s' := by
  induction cs generalizing s with
  | nil =>
    cases h
    exact .refl
  | cons c cs ih =>
    rw [runIf] at h
    split_ifs at h with hok
    obtain ⟨s₁, hc, h⟩ := Option.bind_eq_some_iff.mp h
    exact .head ⟨c, hok, hc⟩ (ih h)

theorem reachable_of_run (cs : List P.Choice) {s : P.State}
    (h : runIf (fun _ _ => True) (.initial P) cs = some s) : P.Reachable s :=
  steps_of_runIf h

end Program

end Laboratory.QueueLatency
