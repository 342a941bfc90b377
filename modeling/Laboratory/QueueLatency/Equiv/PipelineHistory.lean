import Laboratory.QueueLatency.Equiv.PipelineCounts

/-!
# Every event is in one place

`one_place`: in every state of a run, the events that pushes of the ingress threads have put into
a queue are those that wait in a queue, that the dispatcher or a worker holds, that a worker's queue
has rejected, and that a worker has processed.
-/

namespace Laboratory.QueueLatency

open Concurrency
open scoped List

/-! ### Queues and their history -/

section

variable {κ τ : Type} [DecidableEq κ] [DecidableEq τ] {P : Program κ τ}

/-- The events that a call which returns `r` has put into its queue, and has taken out of it. -/
def Call.stores : Call → Return → List Event
  | .push ev _, .pushed true => [ev]
  | _, _ => []

def Call.takes : Call → Return → List Event
  | .pop, .popped true out => out.toList
  | _, _ => []

omit [DecidableEq κ] in
/-- A return is entered in the history of the queue. -/
theorem history_leave {q : κ} {x : QState (P.queue q)} {t : τ} {f : Frame (P.queue q)} {r : Return}
    (hf : x.frame t = some f) (hanswer : f.toCall.Answer r) :
    (x.leave t r).pushed = x.pushed ++ f.toCall.stores r ∧
      (x.leave t r).popped = x.popped ++ f.toCall.takes r := by
  cases f with
  | push ev policy pc =>
    obtain ⟨ok, rfl⟩ := Call.Answer.push hanswer
    cases ok
    · exact ⟨(List.append_nil _).symm, (List.append_nil _).symm⟩
    · refine ⟨?_, (List.append_nil _).symm⟩
      simp only [QState.leave, hf]
      rfl
  | pop pc =>
    rcases Call.Answer.pop hanswer with ⟨out, rfl⟩ | ⟨ev, rfl⟩
    · exact ⟨(List.append_nil _).symm, (List.append_nil _).symm⟩
    · exact ⟨(List.append_nil _).symm, rfl⟩
  | close done =>
    obtain rfl := Call.Answer.close hanswer
    exact ⟨(List.append_nil _).symm, (List.append_nil _).symm⟩

variable [Fintype τ] {H : Program.Protocol P} {s s' : P.State} {c : P.Choice}

namespace Program

/-- **What a step of the thread `t` means to the history**: it takes a step of its own code; or it
returns from an operation; or else nothing is made, returned or processed. -/
inductive Moves (H : Program.Protocol P) (t : τ) (input : P.Input) (s s' : P.State) : Prop
  | own {g : P.Glob} {l : P.Loc t} (free : s.returning t = none)
      (acts : P.act input t s.glob s.loc = some (.own g l)) (glob : s'.glob = g)
      (loc : s'.loc = Function.update s.loc t l)
      (queue : ∀ q, (s'.queue q).pushed = (s.queue q).pushed ∧
        (s'.queue q).popped = (s.queue q).popped)
  | inside {q : κ} {call : Call} (free : s.returning t = none)
      (issues : P.Issues t (s.loc t) q call) (glob : s'.glob = s.glob)
      (loc : s'.loc = Function.update s.loc t (s.loc t))
      (queue : ∀ q, (s'.queue q).pushed = (s.queue q).pushed ∧
        (s'.queue q).popped = (s.queue q).popped)
  | back {q : κ} {f : Frame (P.queue q)} {r : Return} (returning : s.returning t = some r)
      (frame : (s.queue q).frame t = some f) (issues : P.Issues t (s.loc t) q f.toCall)
      (answer : f.toCall.Answer r) (reports : (H.A q).Reports r f) (glob : s'.glob = s.glob)
      (loc : s'.loc = Function.update s.loc t (P.resume t (s.loc t) r))
      (queue : s'.queue = Function.update s.queue q ((s.queue q).leave t r))

omit [DecidableEq τ] [Fintype τ] in
/-- A queue that keeps its history may be replaced. -/
theorem history_update {qs : ∀ q, QState (P.queue q)} {q' : κ} {x : QState (P.queue q')}
    (h : x.pushed = (qs q').pushed ∧ x.popped = (qs q').popped) (q : κ) :
    (Function.update qs q' x q).pushed = (qs q).pushed ∧
      (Function.update qs q' x q).popped = (qs q).popped := by
  by_cases hq : q = q'
  · subst hq
    rwa [Function.update_self]
  · rw [Function.update_of_ne hq]
    exact ⟨rfl, rfl⟩

theorem Good.moves (hs : Good H s) (h : P.step c s = some s') : Moves H c.thread c.input s s' := by
  unfold Program.step at h
  split at h
  · rename_i hcalling
    have hfree : s.returning c.thread = none := by rw [State.returning, hcalling]; rfl
    obtain ⟨a, ha, rfl⟩ := Option.map_eq_some_iff.mp h
    cases a with
    | own g l => exact .own hfree ha rfl rfl fun q => ⟨rfl, rfl⟩
    | call q call =>
      exact .inside hfree ⟨_, _, _, rfl, ha⟩ rfl (Function.update_eq_self ..).symm
        (history_update ⟨rfl, rfl⟩)
  · rename_i q hcalling
    split at h
    · rename_i r hr
      cases h
      obtain ⟨f, hf, hissued, hanswer, hreports⟩ := hs.returns hcalling hr
      refine .back ?_ hf hissued hanswer hreports rfl rfl rfl
      rw [State.returning, hcalling]
      exact hr
    · rename_i hr
      obtain ⟨x, hx, rfl⟩ := Option.map_eq_some_iff.mp h
      obtain ⟨f, hf, hissued⟩ := hs.issues hcalling
      obtain ⟨f', y, -, -, rfl⟩ := step_eq_some hx
      exact .inside (by rw [State.returning, hcalling]; exact hr) hissued rfl
        (Function.update_eq_self ..).symm (history_update ⟨rfl, rfl⟩)

/-- The events that have gone into the queues and come out of them. -/
def State.pushed [Fintype κ] (s : P.State) : Multiset Event :=
  ∑ q, ((s.queue q).pushed : Multiset Event)

def State.popped [Fintype κ] (s : P.State) : Multiset Event :=
  ∑ q, ((s.queue q).popped : Multiset Event)

omit [DecidableEq κ] [DecidableEq τ] [Fintype τ] in
theorem pushed_eq [Fintype κ] (h : ∀ q, (s'.queue q).pushed = (s.queue q).pushed ∧
    (s'.queue q).popped = (s.queue q).popped) : s'.pushed = s.pushed ∧ s'.popped = s.popped := by
  refine ⟨Finset.sum_congr rfl fun q _ => ?_, Finset.sum_congr rfl fun q _ => ?_⟩
  · rw [(h q).1]
  · rw [(h q).2]

omit [Fintype τ] in
theorem pushed_leave [Fintype κ] {t : τ} {q : κ} {f : Frame (P.queue q)} {r : Return}
    (hf : (s.queue q).frame t = some f) (hanswer : f.toCall.Answer r)
    (hs' : s'.queue = Function.update s.queue q ((s.queue q).leave t r)) :
    s'.pushed = s.pushed + f.toCall.stores r ∧ s'.popped = s.popped + f.toCall.takes r := by
  obtain ⟨hpushed, hpopped⟩ := history_leave hf hanswer
  rw [State.pushed, State.popped, hs']
  constructor
  · have hsum := sum_update (fun q (x : QState (P.queue q)) => (x.pushed : Multiset Event))
      s.queue q ((s.queue q).leave t r)
    apply add_right_cancel (b := ((s.queue q).pushed : Multiset Event))
    rw [hsum, hpushed, ← Multiset.coe_add, State.pushed]
    abel
  · have hsum := sum_update (fun q (x : QState (P.queue q)) => (x.popped : Multiset Event))
      s.queue q ((s.queue q).leave t r)
    apply add_right_cancel (b := ((s.queue q).popped : Multiset Event))
    rw [hsum, hpopped, ← Multiset.coe_add, State.popped]
    abel

/-! ### What a thread has in hand -/

theorem stowed_framePhase (hs : Good H s) {t : τ} {q : κ} {f : Frame (P.queue q)}
    (hf : (s.queue q).frame t = some f) :
    ((H.A q).framePhase f).stowed = (f.stowed : Multiset Event) ∧
      ((H.A q).framePhase f).carried = (f.carried : Multiset Event) := by
  have htyped := (hs.queue q).typed t f hf
  cases f with
  | push ev policy pc =>
    refine ⟨((H.refines q).hasStored ev policy pc).trans ?_, ?_⟩
    · cases hstored : (P.queue q).hasStored pc <;> simp [Frame.stowed, hstored]
    · revert htyped
      cases (H.A q).framePhase (.push ev policy pc) <;>
        simp [Phase.of, Frame.toCall, Call.operation, Phase.carried, Frame.carried]
  | pop pc =>
    refine ⟨?_, (H.refines q).hasTaken pc⟩
    revert htyped
    cases (H.A q).framePhase (.pop pc) <;>
      simp [Phase.of, Frame.toCall, Call.operation, Phase.stowed, Frame.stowed]
  | close done => cases done <;> exact ⟨rfl, rfl⟩

variable [Fintype κ]

/-- What the queues know of a thread is what it has in hand. -/
theorem sum_stowed (hs : Good H s) (t : τ) :
    ∑ q, (H.phase s q t).stowed = (s.stowed t : Multiset Event) ∧
      ∑ q, (H.phase s q t).carried = (s.carried t : Multiset Event) := by
  have hidle : ∀ q, s.calling t ≠ some q → H.phase s q t = .idle := by
    intro q hq
    rw [show H.phase s q t = (H.A q).phase ((s.queue q).frame t) from rfl, hs.frame_eq_none hq]
    rfl
  unfold State.stowed State.carried
  cases hcalling : s.calling t with
  | none =>
    have hall : ∀ q, H.phase s q t = .idle := fun q => hidle q (by rw [hcalling]; nofun)
    exact ⟨Finset.sum_eq_zero fun q _ => by rw [hall]; rfl,
      Finset.sum_eq_zero fun q _ => by rw [hall]; rfl⟩
  | some q =>
    obtain ⟨f, hf, -⟩ := hs.issues hcalling
    have hother : ∀ q', q' ≠ q → H.phase s q' t = .idle := by
      intro q' hq'
      refine hidle q' ?_
      rw [hcalling, ne_eq, Option.some.injEq]
      exact hq'.symm
    have hphase : H.phase s q t = (H.A q).framePhase f := phases_eq _ hf
    obtain ⟨hstowed, hcarried⟩ := stowed_framePhase hs hf
    simp only [hf, Option.elim_some]
    constructor
    · rw [Finset.sum_eq_single q (fun q' _ hq' => by rw [hother q' hq']; rfl) (by simp), hphase,
        hstowed]
    · rw [Finset.sum_eq_single q (fun q' _ hq' => by rw [hother q' hq']; rfl) (by simp), hphase,
        hcarried]

omit [DecidableEq κ] [DecidableEq τ] [Fintype κ] [Fintype τ] in
/-- A thread has put into a queue what it pushes. -/
theorem Framed.stowed_eq (hs : Framed s) (t : τ) : s.stowed t = [] ∨
    ∃ q ev policy, P.Issues t (s.loc t) q (.push ev policy) ∧ s.stowed t = [ev] := by
  unfold State.stowed
  cases hcalling : s.calling t with
  | none => exact .inl rfl
  | some q =>
    obtain ⟨f, hf, hissued⟩ := hs.issues hcalling
    simp only [hf, Option.elim_some]
    cases f with
    | push ev policy pc =>
      cases hstored : (P.queue q).hasStored pc
      · exact .inl (by simp [Frame.stowed, hstored])
      · exact .inr ⟨q, ev, policy, hissued, by simp [Frame.stowed, hstored]⟩
    | _ => exact .inl rfl

omit [DecidableEq κ] [DecidableEq τ] [Fintype κ] [Fintype τ] in
theorem Framed.carried_eq (hs : Framed s) (t : τ) :
    s.carried t = [] ∨ ∃ q, P.Issues t (s.loc t) q .pop := by
  unfold State.carried
  cases hcalling : s.calling t with
  | none => exact .inl rfl
  | some q =>
    obtain ⟨f, hf, hissued⟩ := hs.issues hcalling
    simp only [hf, Option.elim_some]
    cases f with
    | pop pc => exact .inr ⟨q, hissued⟩
    | _ => exact .inl rfl

/-- **Where the events are**, over all queues. -/
theorem flow_sum (hs : Good H s) :
    s.pushed + ∑ t, (s.stowed t : Multiset Event) =
      s.popped + ∑ t, (s.carried t : Multiset Event) +
        ∑ q, ((P.queue q).content (s.queue q).shared : Multiset Event) := by
  have hflow : ∀ q, ((s.queue q).pushed : Multiset Event) + ∑ t, (H.phase s q t).stowed =
      (s.queue q).popped + ∑ t, (H.phase s q t).carried +
        (P.queue q).content (s.queue q).shared := by
    intro q
    rw [(H.refines q).content]
    exact (hs.queue q).flow
  have hsum := Finset.sum_congr rfl fun q (_ : q ∈ Finset.univ) => hflow q
  simp only [Finset.sum_add_distrib] at hsum
  rw [Finset.sum_comm (s := Finset.univ (α := κ)) (t := Finset.univ (α := τ)),
    Finset.sum_comm (s := Finset.univ (α := κ)) (t := Finset.univ (α := τ))] at hsum
  rw [State.pushed, State.popped]
  simpa only [(sum_stowed hs _).1, (sum_stowed hs _).2] using hsum

end Program

end

namespace Pipeline

variable {P W : ℕ} {S : Pipeline P W} {config : PipelineConfig} {times : Times} {now : ℤ}
  {g g' : PipelineState W} {q : S.QueueId} [NeZero W] {x : History P W}
  {H : Program.Protocol (S.program config times)} {s s' : (S.program config times).State}
  {c : (S.program config times).Choice}

/-! ### What a thread adds to the history -/

omit [NeZero W] in
/-- An ingress thread makes the event that it has in hand, and accepts no other. -/
theorem accepts_ingress {k : Fin P} {l l' : IngressLoc} (h : IngressStep S times k now g l g' l') :
    l.accepts none ++ l'.event <+ l.event ++ S.makes k now l none := by
  cases h <;> simp [IngressLoc.accepts, IngressLoc.event, makes]

omit [NeZero W] in
theorem accepts_resumeIngress (config : PipelineConfig) {v : Ingress} {ev : Event} {measured : Bool}
    {k : Fin P} {r : Return}
    {policy : BackpressurePolicy} (h : (Call.push ev policy).Answer r) :
    (IngressLoc.push v ev measured).accepts r ++
        (resumeIngress config (.push v ev measured) r).event <+
      (IngressLoc.push v ev measured).event ++ S.makes k now (.push v ev measured) r ∧
    (IngressLoc.push v ev measured).accepts r = (Call.push ev policy).stores r := by
  cases r with
  | pushed ok =>
    cases ok <;> simp only [resumeIngress] <;> split_ifs <;>
      simp [IngressLoc.accepts, IngressLoc.event, makes, Call.stores]
  | popped => exact h.elim
  | closed => exact h.elim

omit [NeZero W] in
theorem event_dispatcher {l l' : DispatcherLoc W} (h : DispatcherStep times g l g' l') :
    l'.event = l.event := by
  cases h <;> rfl

omit [NeZero W] in
theorem rejects_none {l l' : DispatcherLoc W} (h : l'.event = l.event) :
    l.rejects none = [] ∧ (([] : List Event) + l.rejects none + l'.event : Multiset Event) =
      ([] : List Event) + l.event := by
  rw [h]
  cases l <;> exact ⟨rfl, rfl⟩

omit [NeZero W] in
theorem rejects_push {ev : Event} {measured ok : Bool} {policy : BackpressurePolicy} :
    ((Call.push ev policy).stores (.pushed ok) +
        (DispatcherLoc.push (W := W) ev measured).rejects (some (.pushed ok)) +
        (resumeDispatcher (W := W) config (.push ev measured) (.pushed ok)).event :
          Multiset Event) =
      (Call.push ev policy).takes (.pushed ok) +
        (DispatcherLoc.push (W := W) ev measured).event := by
  cases ok <;> simp only [resumeDispatcher] <;> split_ifs <;> rfl

omit [NeZero W] in
/-- What a worker takes it has in hand until it has processed it. -/
theorem takes_worker {k : Fin W} {l l' : WorkerLoc} (h : WorkerStep times k g l g' l') :
    l.takes none = [] ∧ l.event = l.processes none ++ l'.event := by
  cases h <;> exact ⟨rfl, rfl⟩

/-- **The invariant of the history.** -/
structure Recorded (config : PipelineConfig) (loc : ∀ t, S.Loc t) (pushed popped : Multiset Event)
    (x : History P W) : Prop where
  created : ∀ k, x.accepted k ++ IngressLoc.event (loc (.ingress k)) <+ x.created k
  taken : ∀ k, x.taken k = x.processed k ++ WorkerLoc.event (loc (.worker k))
  rejected : x.rejected ≠ [] → config.policy = .drop
  balance : pushed + x.rejected + DispatcherLoc.event (loc .dispatcher) +
    ∑ k, (x.taken k : Multiset Event) = popped + ∑ k, (x.accepted k : Multiset Event)

variable {loc : ∀ t, S.Loc t} {pushed pushed' popped popped' : Multiset Event}

omit [NeZero W] in
/-- The sum over all lists after one of them has got longer. -/
theorem sum_append {n : ℕ} (f : Fin n → List Event) (k : Fin n) (a : List Event) :
    ∑ j, (Function.update f k (f k ++ a) j : Multiset Event) = ∑ j, (f j : Multiset Event) + a := by
  have hsum := sum_update (fun _ (l : List Event) => (l : Multiset Event)) f k (f k ++ a)
  apply add_right_cancel (b := (f k : Multiset Event))
  rw [hsum, ← Multiset.coe_add]
  abel

theorem add_accepts_none (events : Multiset Event) (l : IngressLoc) :
    events + l.accepts none = events := by
  cases l <;> exact add_zero events

omit [NeZero W] in
theorem Recorded.ingress (hs : Recorded config loc pushed popped x) {k : Fin P} {l l' : IngressLoc}
    {r : Option Return} (hl : loc (.ingress k) = l)
    (h : l.accepts r ++ l'.event <+ l.event ++ S.makes k now l r)
    (hpushed : pushed' = pushed + l.accepts r) (hpopped : popped' = popped) :
    Recorded config (Function.update loc (.ingress k) l') pushed' popped'
      (S.observeIngress k now l r x) := by
  unfold observeIngress
  refine ⟨fun j => ?_, fun j => ?_, hs.rejected, ?_⟩
  · by_cases hj : j = k
    · subst hj
      have hloc : Function.update loc (.ingress j) l' (.ingress j) = l' := Function.update_self ..
      have hcreated := hs.created j
      rw [hl] at hcreated
      simp only [Function.update_self]
      rw [hloc]
      calc
        x.accepted j ++ l.accepts r ++ l'.event = x.accepted j ++ (l.accepts r ++ l'.event) :=
          List.append_assoc ..
        _ <+ x.accepted j ++ (l.event ++ S.makes j now l r) :=
          (List.append_sublist_append_left _).mpr h
        _ = x.accepted j ++ l.event ++ S.makes j now l r := (List.append_assoc ..).symm
        _ <+ x.created j ++ S.makes j now l r := (List.append_sublist_append_right _).mpr hcreated
    · have hne : Thread.ingress (W := W) j ≠ .ingress k := by simpa using hj
      have hloc : Function.update loc (.ingress k) l' (.ingress j) = loc (.ingress j) :=
        Function.update_of_ne hne _ _
      simp only [Function.update_of_ne hj]
      rw [hloc]
      exact hs.created j
  · exact hs.taken j
  · simp only [sum_append]
    rw [hpushed, hpopped]
    change pushed + l.accepts r + x.rejected + DispatcherLoc.event (loc .dispatcher) + _ = _
    calc
      _ = pushed + x.rejected + DispatcherLoc.event (loc .dispatcher) +
          ∑ k, (x.taken k : Multiset Event) + l.accepts r := by abel
      _ = _ := by
        rw [hs.balance]
        abel

omit [NeZero W] in
theorem Recorded.worker (hs : Recorded config loc pushed popped x) {k : Fin W} {l l' : WorkerLoc}
    {r : Option Return} (hl : loc (.worker k) = l)
    (h : l.event ++ l.takes r = l.processes r ++ l'.event)
    (hpushed : pushed' = pushed) (hpopped : popped' = popped + l.takes r) :
    Recorded config (Function.update loc (.worker k) l') pushed' popped'
      (observeWorker times k now l r x) := by
  unfold observeWorker
  refine ⟨fun j => hs.created j, fun j => ?_, hs.rejected, ?_⟩
  · by_cases hj : j = k
    · subst hj
      have hloc : Function.update loc (.worker j) l' (.worker j) = l' := Function.update_self ..
      simp only [Function.update_self]
      rw [hloc, hs.taken j, hl, List.append_assoc, h, List.append_assoc]
    · have hne : Thread.worker (P := P) j ≠ .worker k := by simpa using hj
      have hloc : Function.update loc (.worker k) l' (.worker j) = loc (.worker j) :=
        Function.update_of_ne hne _ _
      simp only [Function.update_of_ne hj]
      rw [hloc]
      exact hs.taken j
  · simp only [sum_append]
    rw [hpushed, hpopped]
    change pushed + x.rejected + DispatcherLoc.event (loc .dispatcher) + _ = _
    rw [← add_assoc, hs.balance]
    abel

omit [NeZero W] in
theorem Recorded.dispatcher (hs : Recorded config loc pushed popped x) {l l' : DispatcherLoc W}
    {r : Option Return} (stored taken : List Event) (hl : loc .dispatcher = l)
    (hdrop : l.rejects r ≠ [] → config.policy = .drop)
    (h : (stored + l.rejects r + l'.event : Multiset Event) = taken + l.event)
    (hpushed : pushed' = pushed + stored) (hpopped : popped' = popped + taken) :
    Recorded config (Function.update loc .dispatcher l') pushed' popped'
      (observeDispatcher l r x) := by
  unfold observeDispatcher
  refine ⟨hs.created, hs.taken, fun hne => ?_, ?_⟩
  · by_cases hnil : l.rejects r = []
    · simp only [hnil, List.append_nil] at hne
      exact hs.rejected hne
    · exact hdrop hnil
  · have hloc : Function.update loc .dispatcher l' .dispatcher = l' := Function.update_self ..
    have hbalance := hs.balance
    rw [hl] at hbalance
    rw [hloc, hpushed, hpopped, ← Multiset.coe_add]
    calc
      _ = pushed + x.rejected + ∑ k, (x.taken k : Multiset Event) +
          (stored + l.rejects r + l'.event) := by abel
      _ = pushed + x.rejected + l.event + ∑ k, (x.taken k : Multiset Event) + taken := by
        rw [h]
        abel
      _ = _ := by
        rw [hbalance]
        abel

/-- One step of an ingress thread. -/
theorem Recorded.step_ingress (hs : Recorded config s.loc s.pushed s.popped x) {k : Fin P}
    (h : Program.Moves H (.ingress k) now s s') :
    Recorded config s'.loc s'.pushed s'.popped
      (S.observeIngress k now (s.loc (.ingress k)) (s.returning (.ingress k)) x) := by
  cases h with
  | own free acts glob loc queue =>
    obtain ⟨hpushed, hpopped⟩ := Program.pushed_eq queue
    rw [loc, free]
    exact hs.ingress rfl (accepts_ingress (actIngress_own acts))
      (hpushed.trans (add_accepts_none ..).symm) hpopped
  | inside free issues glob loc queue =>
    obtain ⟨hpushed, hpopped⟩ := Program.pushed_eq queue
    obtain ⟨v, ev, measured, hl, -, -⟩ := issues_ingress issues
    rw [loc, free, hl]
    exact hs.ingress hl (.refl _) (hpushed.trans (add_accepts_none ..).symm) hpopped
  | back returning frame issues answer reports glob loc queue =>
    obtain ⟨hpushed, hpopped⟩ := Program.pushed_leave frame answer queue
    obtain ⟨v, ev, measured, hl, -, hc⟩ := issues_ingress issues
    rw [hc] at answer hpushed hpopped
    obtain ⟨hsub, hstores⟩ := accepts_resumeIngress config answer
    rw [loc, returning, hl]
    refine hs.ingress hl hsub ?_ ?_
    · rw [hpushed, hstores]
    · rw [hpopped]
      exact add_zero _

/-- One step of a worker. -/
theorem Recorded.step_worker (hs : Recorded config s.loc s.pushed s.popped x) {k : Fin W}
    (h : Program.Moves H (.worker k) now s s') :
    Recorded config s'.loc s'.pushed s'.popped
      (observeWorker times k now (s.loc (.worker k)) (s.returning (.worker k)) x) := by
  cases h with
  | own free acts glob loc queue =>
    obtain ⟨hpushed, hpopped⟩ := Program.pushed_eq queue
    obtain ⟨htakes, hevent⟩ := takes_worker (actWorker_own acts)
    rw [loc, free]
    refine hs.worker rfl ?_ hpushed ?_
    · rw [htakes, List.append_nil]
      exact hevent
    · rw [htakes, hpopped]
      exact (add_zero _).symm
  | inside free issues glob loc queue =>
    obtain ⟨hpushed, hpopped⟩ := Program.pushed_eq queue
    obtain ⟨hl, -, -⟩ := issues_worker issues
    rw [loc, free, hl]
    refine hs.worker hl rfl hpushed ?_
    rw [hpopped]
    exact (add_zero _).symm
  | @back q f r returning frame issues answer reports glob loc queue =>
    obtain ⟨hpushed, hpopped⟩ := Program.pushed_leave frame answer queue
    obtain ⟨hl, -, hc⟩ := issues_worker issues
    rw [hc] at answer hpushed hpopped
    rw [loc, returning, hl]
    rcases answer.pop with ⟨out, rfl⟩ | ⟨ev, rfl⟩
    · exact hs.worker hl rfl (hpushed.trans (add_zero _)) hpopped
    · exact hs.worker hl rfl (hpushed.trans (add_zero _)) hpopped

/-- One step of the dispatcher. -/
theorem Recorded.step_dispatcher (hs : Recorded config s.loc s.pushed s.popped x)
    (hreach : (S.program config times).Reachable s) (h : Program.Moves H .dispatcher now s s') :
    Recorded config s'.loc s'.pushed s'.popped
      (observeDispatcher (s.loc .dispatcher) (s.returning .dispatcher) x) := by
  cases h with
  | own free acts glob loc queue =>
    obtain ⟨hpushed, hpopped⟩ := Program.pushed_eq queue
    obtain ⟨hrejects, hevent⟩ := rejects_none (event_dispatcher (actDispatcher_own acts))
    rw [loc, free]
    exact hs.dispatcher [] [] rfl (fun h => absurd hrejects h) hevent
      (hpushed.trans (add_zero _).symm) (hpopped.trans (add_zero _).symm)
  | inside free issues glob loc queue =>
    obtain ⟨hpushed, hpopped⟩ := Program.pushed_eq queue
    obtain ⟨hrejects, hevent⟩ := rejects_none (W := W) (l := s.loc .dispatcher) rfl
    rw [loc, free]
    exact hs.dispatcher [] [] rfl (fun h => absurd hrejects h) hevent
      (hpushed.trans (add_zero _).symm) (hpopped.trans (add_zero _).symm)
  | @back q f r returning frame issues answer reports glob loc queue =>
    obtain ⟨hpushed, hpopped⟩ := Program.pushed_leave frame answer queue
    rcases issues_dispatcher issues with ⟨hl, -, hc⟩ | ⟨ev, measured, hl, -, hc⟩ |
      ⟨k, rest, hl, -, hc⟩
    · rw [hc] at answer hpushed hpopped
      rw [loc, returning, hl]
      rcases answer.pop with ⟨out, rfl⟩ | ⟨ev, rfl⟩
      · exact hs.dispatcher _ _ hl (by nofun) rfl hpushed hpopped
      · exact hs.dispatcher _ _ hl (by nofun) rfl hpushed hpopped
    · obtain ⟨ok, rfl⟩ := (hc ▸ answer).push
      rw [hc] at hpushed hpopped
      rw [loc, returning, hl]
      refine hs.dispatcher _ _ hl (fun hne => ?_) rejects_push hpushed hpopped
      cases ok
      · exact policy_eq_drop hreach frame hc reports
      · exact absurd rfl hne
    · rw [hc] at answer hpushed hpopped
      obtain rfl := answer.close
      rw [loc, returning, hl]
      exact hs.dispatcher _ _ hl (by nofun) rfl hpushed hpopped

omit [NeZero W] in
theorem Recorded.main (hs : Recorded config loc pushed popped x) {l : S.Loc .main}
    (hpushed : pushed' = pushed) (hpopped : popped' = popped) :
    Recorded config (Function.update loc .main l) pushed' popped' x := by
  subst hpushed hpopped
  exact ⟨hs.created, hs.taken, hs.rejected, hs.balance⟩

/-- One step of the main thread, which calls nothing but `close`. -/
theorem Recorded.step_main (hs : Recorded config s.loc s.pushed s.popped x)
    (h : Program.Moves H .main now s s') : Recorded config s'.loc s'.pushed s'.popped x := by
  cases h with
  | own free acts glob loc queue | inside free issues glob loc queue =>
    obtain ⟨hpushed, hpopped⟩ := Program.pushed_eq queue
    rw [loc]
    exact hs.main hpushed hpopped
  | @back q f r returning frame issues answer reports glob loc queue =>
    obtain ⟨hpushed, hpopped⟩ := Program.pushed_leave frame answer queue
    obtain ⟨rest, -, hc⟩ := issues_main issues
    rw [hc] at hpushed hpopped
    rw [loc]
    exact hs.main (hpushed.trans (add_zero _)) (hpopped.trans (add_zero _))

theorem recorded_start (config : PipelineConfig) (times : Times) :
    Recorded config (S.program config times).start 0 0 {} := by
  refine ⟨fun k => .refl _, fun k => rfl, fun h => absurd rfl h, ?_⟩
  have hstart : DispatcherLoc.event ((S.program config times).start .dispatcher) = [] := by
    change DispatcherLoc.event
      (if S.dispatch.isSome then DispatcherLoc.pop else DispatcherLoc.done) = []
    split_ifs <;> rfl
  rw [hstart]
  simp

/-- **The history of every run.** -/
theorem recorded (H : Program.Protocol (S.program config times))
    (h : S.Observed config times s x) : Recorded config s.loc s.pushed s.popped x := by
  induction h with
  | start =>
    have hzero : (Program.State.initial (S.program config times)).pushed = 0 ∧
        (Program.State.initial (S.program config times)).popped = 0 :=
      ⟨Finset.sum_eq_zero fun q _ => rfl, Finset.sum_eq_zero fun q _ => rfl⟩
    rw [hzero.1, hzero.2]
    exact recorded_start config times
  | @step s s' x c hobserved hstep ih =>
    have hreach := hobserved.reachable
    have hgood : Program.Good H s := Program.good_of_reachableIf hreach
    have hmoves := hgood.moves hstep
    obtain ⟨t, now, spurious, wake, addr⟩ := c
    rcases t with k | _ | k | _
    · exact ih.step_ingress hmoves
    · exact ih.step_dispatcher hreach hmoves
    · exact ih.step_worker hmoves
    · exact ih.step_main hmoves

/-! ### Places -/

/-- The threads, kind by kind. -/
def kinds : Thread P W ≃ (Fin P ⊕ Unit) ⊕ (Fin W ⊕ Unit) where
  toFun
    | .ingress k => .inl (.inl k)
    | .dispatcher => .inl (.inr ())
    | .worker k => .inr (.inl k)
    | .main => .inr (.inr ())
  invFun
    | .inl (.inl k) => .ingress k
    | .inl (.inr _) => .dispatcher
    | .inr (.inl k) => .worker k
    | .inr (.inr _) => .main
  left_inv := by rintro (k | _ | k | _) <;> rfl
  right_inv := by rintro ((k | _) | (k | _)) <;> rfl

omit [NeZero W] in
/-- A sum over the threads, kind by kind. -/
theorem sum_threads {M : Type} [AddCommMonoid M] (f : Thread P W → M) :
    ∑ t, f t = ∑ k, f (.ingress k) + f .dispatcher + ∑ k, f (.worker k) + f .main := by
  rw [← Equiv.sum_comp kinds.symm]
  simp only [Fintype.sum_sum_type, Finset.univ_unique, Finset.sum_singleton]
  exact (add_assoc _ _ _).symm

/-- What an ingress thread has put into a queue is the event it pushes. -/
theorem stowed_ingress (hs : Program.Framed s) (k : Fin P) :
    s.stowed (.ingress k) <+ IngressLoc.event (s.loc (.ingress k)) := by
  rcases hs.stowed_eq (.ingress k) with h | ⟨q, ev, policy, hissued, h⟩
  · rw [h]
    exact List.nil_sublist _
  · obtain ⟨v, ev', measured, hl, -, hc⟩ := issues_ingress hissued
    cases hc
    rw [h, hl]
    exact .refl _

/-- What the dispatcher holds is what it has popped, less what it has put into a queue. -/
theorem event_eq_stowed_add (hs : Program.Framed s) :
    (DispatcherLoc.event (s.loc .dispatcher) : Multiset Event) =
      s.stowed .dispatcher +
        (if s.stowed .dispatcher = [] then DispatcherLoc.event (s.loc .dispatcher) else [] :
          List Event) := by
  rcases hs.stowed_eq .dispatcher with h | ⟨q, ev, policy, hissued, h⟩
  · rw [h, if_pos rfl]
    exact (zero_add _).symm
  · rcases issues_dispatcher hissued with ⟨-, -, hc⟩ | ⟨ev', measured, hl, -, hc⟩ |
      ⟨_, _, -, -, hc⟩
    · cases hc
    · cases hc
      rw [h, if_neg (by simp), hl]
      exact (add_zero _).symm
    · cases hc

/-- Who puts no event into a queue, and who takes none out. -/
theorem stowed_eq_nil (hs : Program.Framed s) : (∀ k, s.carried (.ingress k) = []) ∧
    (∀ k, s.stowed (.worker k) = []) ∧ s.stowed .main = [] ∧ s.carried .main = [] := by
  refine ⟨fun k => ?_, fun k => ?_, ?_, ?_⟩
  · refine (hs.carried_eq (.ingress k)).resolve_right ?_
    rintro ⟨q, hissued⟩
    obtain ⟨_, _, _, -, -, hc⟩ := issues_ingress hissued
    cases hc
  · refine (hs.stowed_eq (.worker k)).resolve_right ?_
    rintro ⟨q, ev, policy, hissued, -⟩
    cases (issues_worker hissued).2.2
  · refine (hs.stowed_eq .main).resolve_right ?_
    rintro ⟨q, ev, policy, hissued, -⟩
    obtain ⟨rest, -, hc⟩ := issues_main hissued
    cases hc
  · refine (hs.carried_eq .main).resolve_right ?_
    rintro ⟨q, hissued⟩
    obtain ⟨rest, -, hc⟩ := issues_main hissued
    cases hc

/-- **Where an event is** that an ingress thread has put into a queue. -/
theorem places (H : Program.Protocol (S.program config times)) (h : S.Observed config times s x) :
    ∑ k, (x.accepted k : Multiset Event) + ∑ k, (s.stowed (.ingress k) : Multiset Event) =
      ∑ q, (waiting s q : Multiset Event) + dispatching s + ∑ k, (working s k : Multiset Event) +
        x.rejected + ∑ k, (x.processed k : Multiset Event) := by
  have hgood : Program.Good H s := Program.good_of_reachableIf h.reachable
  have hrecorded := recorded H h
  obtain ⟨hingress, hworker, hmain, hmain'⟩ := stowed_eq_nil hgood.toFramed
  have hstowed : ∑ t, (s.stowed t : Multiset Event) =
      ∑ k, (s.stowed (.ingress k) : Multiset Event) + s.stowed .dispatcher := by
    have hzero : ∑ k, (s.stowed (.worker k) : Multiset Event) = 0 :=
      Finset.sum_eq_zero fun k _ => by rw [hworker k]; rfl
    rw [sum_threads, hmain, hzero]
    exact (add_zero _).trans (add_zero _)
  have hcarried : ∑ t, (s.carried t : Multiset Event) =
      s.carried .dispatcher + ∑ k, (s.carried (.worker k) : Multiset Event) := by
    have hzero : ∑ k, (s.carried (.ingress k) : Multiset Event) = 0 :=
      Finset.sum_eq_zero fun k _ => by rw [hingress k]; rfl
    rw [sum_threads, hmain', hzero, zero_add]
    exact add_zero _
  have hworking : ∑ k, (working s k : Multiset Event) =
      ∑ k, (s.carried (.worker k) : Multiset Event) +
        ∑ k, (WorkerLoc.event (s.loc (.worker k)) : Multiset Event) := by
    rw [← Finset.sum_add_distrib]
    rfl
  have htaken : ∑ k, (x.taken k : Multiset Event) = ∑ k, (x.processed k : Multiset Event) +
      ∑ k, (WorkerLoc.event (s.loc (.worker k)) : Multiset Event) := by
    rw [← Finset.sum_add_distrib]
    exact Finset.sum_congr rfl fun k _ => congrArg _ (hrecorded.taken k)
  have hflow : s.pushed + (∑ k, (s.stowed (.ingress k) : Multiset Event) + s.stowed .dispatcher) =
      s.popped + (s.carried .dispatcher + ∑ k, (s.carried (.worker k) : Multiset Event)) +
        ∑ q, (waiting s q : Multiset Event) := by
    rw [← hstowed, ← hcarried]
    exact Program.flow_sum hgood
  have hbalance := hrecorded.balance
  rw [event_eq_stowed_add hgood.toFramed, htaken] at hbalance
  rw [dispatching, ← Multiset.coe_add, hworking]
  -- What has gone into the queues and come out of them is added on both sides.
  apply add_right_cancel (b := s.pushed + s.popped + (s.stowed .dispatcher : Multiset Event))
  calc
    _ = (s.popped + ∑ k, (x.accepted k : Multiset Event)) + (s.pushed +
          (∑ k, (s.stowed (.ingress k) : Multiset Event) + s.stowed .dispatcher)) := by abel
    _ = _ := by
      rw [← hbalance, hflow]
      abel

/-- No event is processed more often than it has been made. -/
theorem processed_le (H : Program.Protocol (S.program config times))
    (h : S.Observed config times s x) :
    ∑ k, (x.processed k : Multiset Event) ≤ ∑ k, (x.created k : Multiset Event) := by
  have hframed : Program.Framed s := Program.framed_of_reachableIf h.reachable
  have hrecorded := recorded H h
  calc
    _ ≤ ∑ k, (x.accepted k : Multiset Event) + ∑ k, (s.stowed (.ingress k) : Multiset Event) := by
      rw [places H h]
      exact le_add_self
    _ = ∑ k, (x.accepted k + s.stowed (.ingress k) : Multiset Event) :=
      Finset.sum_add_distrib.symm
    _ ≤ ∑ k, (x.created k : Multiset Event) := by
      refine Finset.sum_le_sum fun k _ => ?_
      rw [Multiset.coe_add]
      refine Multiset.coe_le.mpr (List.Sublist.subperm ?_)
      exact ((List.append_sublist_append_left _).mpr (stowed_ingress hframed k)).trans
        (hrecorded.created k)

/-! ### Counters -/

/-- The books of a worker: it has recorded the latencies of the events that it has counted, but for
one that it is about to record. -/
def Counted (g : PipelineState W) (k : Fin W) (l : WorkerLoc) : Prop :=
  (g.worker_metrics k).completed =
    (g.worker_metrics k).latencies_ns.length + if l.owesSample then 1 else 0

omit [NeZero W] in
theorem counted_worker {k : Fin W} {l l' : WorkerLoc} (h : WorkerStep times k g l g' l')
    (hl : Counted g k l) : Counted g' k l' := by
  cases h with
  | countOwn | record => simp_all [Counted, WorkerLoc.owesSample]
  | _ => exact hl

omit [NeZero W] in
theorem counted_resume {k : Fin W} {l : WorkerLoc} {r : Return} (hl : Counted g k l) :
    Counted g k (resumeWorker l r) := by
  unfold resumeWorker
  split <;> exact hl

/-- Only the worker itself keeps its books. -/
theorem metrics_own {input : ℤ} {t : Thread P W} {k : Fin W} {loc : ∀ t, S.Loc t} {l : S.Loc t}
    (h : (S.program config times).act input t g loc = some (.own g' l)) (ht : t ≠ .worker k) :
    g'.worker_metrics k = g.worker_metrics k := by
  rcases t with j | _ | j | _
  · have hstep := actIngress_own h
    generalize loc (.ingress j) = l₀ at hstep
    cases hstep <;> rfl
  · have hstep := actDispatcher_own h
    generalize loc .dispatcher = l₀ at hstep
    cases hstep <;> rfl
  · have hjk : k ≠ j := by
      rintro rfl
      exact ht rfl
    have hstep := actWorker_own h
    generalize loc (.worker j) = l₀ at hstep
    cases hstep with
    | countOwn | record => exact Function.update_of_ne hjk _ _
    | _ => rfl
  · rcases actMain_own h with ⟨-, rfl⟩ | ⟨-, rfl, -⟩ <;> rfl

omit [NeZero W] in
theorem Counted.update {k : Fin W} {l : WorkerLoc} (h : Counted g k l) :
    Counted g k (Function.update loc (.worker k) l (.worker k)) := by
  have hloc : Function.update loc (.worker k) l (.worker k) = l := Function.update_self ..
  rw [hloc]
  exact h

omit [NeZero W] in
theorem Counted.update_of_ne {k : Fin W} {t : Thread P W} {l : S.Loc t} (ht : t ≠ .worker k)
    (h : Counted g k (loc (.worker k))) : Counted g k (Function.update loc t l (.worker k)) := by
  rw [Function.update_of_ne ht.symm]
  exact h

theorem Counted.step {k : Fin W} (hk : Counted s.glob k (s.loc (.worker k)))
    (h : (S.program config times).step c s = some s') :
    Counted s'.glob k (s'.loc (.worker k)) := by
  obtain ⟨t, now, _, _, _⟩ := c
  rcases Program.step_cases h with ⟨g, l, -, hact, rfl⟩ | ⟨_, _, -, -, rfl⟩ |
    ⟨q, r, -, -, rfl⟩ | ⟨_, _, -, -, rfl⟩
  · by_cases ht : t = .worker k
    · subst ht
      exact (counted_worker (actWorker_own hact) hk).update
    · refine Counted.update_of_ne ht ?_
      have hmetrics := metrics_own hact ht
      unfold Counted at hk ⊢
      rw [hmetrics]
      exact hk
  · exact hk
  · by_cases ht : t = .worker k
    · subst ht
      exact (counted_resume hk).update
    · exact hk.update_of_ne ht
  · exact hk

theorem counted (h : (S.program config times).Reachable s) (k : Fin W) :
    Counted s.glob k (s.loc (.worker k)) := by
  induction h with
  | refl => rfl
  | tail _ hstep ih =>
    obtain ⟨c, -, hc⟩ := hstep
    exact ih.step hc

omit [NeZero W] in
theorem ownCompleted_eq {l : Fin W → WorkerLoc} (h : ∀ k, Counted g k (l k)) :
    ownCompleted g = samples g + Finset.card {k | (l k).owesSample = true} := by
  rw [Finset.card_filter, ownCompleted, samples, ← Finset.sum_add_distrib]
  exact Finset.sum_congr rfl fun k _ => h k

omit [NeZero W] in
theorem completed_eq {l : Fin W → WorkerLoc} (h : ∀ k, Counted g k (l k))
    (hsampled : sampled g + ∑ k, (l k).unsampled = 0) :
    g.completed = ownCompleted g + Finset.card {k | (l k).owesOwn = true} := by
  have hown := ownCompleted_eq h
  have hsum : ∑ k, (l k).unsampled = (Finset.card {k | (l k).owesOwn = true} : ℤ) +
      (Finset.card {k | (l k).owesSample = true} : ℤ) := by
    rw [Finset.card_filter, Finset.card_filter, Nat.cast_sum, Nat.cast_sum,
      ← Finset.sum_add_distrib]
    refine Finset.sum_congr rfl fun k _ => ?_
    cases l k <;> rfl
  have hsamples : (samples g : ℤ) = ∑ k, ((g.worker_metrics k).latencies_ns.length : ℤ) :=
    Nat.cast_sum _ _
  rw [sampled] at hsampled
  omega

/-- **The counters** differ by what workers have still to enter. -/
theorem counters_differ (H : Program.Protocol (S.program config times))
    (h : (S.program config times).Reachable s) :
    PipelineState.completed s.glob = ownCompleted s.glob +
        Finset.card {k | WorkerLoc.owesOwn (s.loc (.worker k)) = true} ∧
      ownCompleted s.glob = samples s.glob +
        Finset.card {k | WorkerLoc.owesSample (s.loc (.worker k)) = true} := by
  refine ⟨completed_eq (counted h) ?_, ownCompleted_eq (counted h)⟩
  have hbalanced := sample_balanced H h
  have htotal : ∀ q, (S.sampleLedger config times).total q (s.queue q) = 0 := by
    intro q
    simp [Ledger.total, sampleLedger]
  rw [Ledger.Balanced, sum_threads, Finset.sum_eq_zero fun q _ => htotal q] at hbalanced
  have hzero : ∑ k, (S.sampleLedger config times).pending (.ingress k) (s.loc (.ingress k)) = 0 :=
    Finset.sum_eq_zero fun k _ => rfl
  rw [hzero, zero_add] at hbalanced
  change sampled s.glob + (0 + ∑ k, WorkerLoc.unsampled (s.loc (.worker k)) + 0) = 0 at hbalanced
  rwa [zero_add, add_zero] at hbalanced

omit [NeZero W] in
/-- No worker that is not measuring owes anything. -/
theorem owes_of_isMeasuring {l : WorkerLoc} (h : l.isMeasuring = false) :
    l.owesOwn = false ∧ l.owesSample = false := by
  cases l <;> simp_all [WorkerLoc.isMeasuring, WorkerLoc.owesOwn, WorkerLoc.owesSample]

/-- The counters agree while no worker is measuring. -/
theorem counters_eq (H : Program.Protocol (S.program config times))
    (h : (S.program config times).Reachable s)
    (hidle : ∀ k, WorkerLoc.isMeasuring (s.loc (.worker k)) = false) :
    PipelineState.completed s.glob = ownCompleted s.glob ∧
      ownCompleted s.glob = samples s.glob := by
  obtain ⟨hcompleted, hown⟩ := counters_differ H h
  rw [Finset.filter_false_of_mem fun k _ => by simp [owes_of_isMeasuring (hidle k)]] at hcompleted
  rw [Finset.filter_false_of_mem fun k _ => by simp [owes_of_isMeasuring (hidle k)]] at hown
  exact ⟨hcompleted, hown⟩

end Pipeline

open Pipeline

variable {config : AcceptedConfig} {max_size : ℕ} {times : Times}
  {S : Pipeline config.ingress config.workers}

/-- **Every event is in one place.** The events of which the push of an ingress thread has returned
`true`, and those that it has put into a queue and not returned from, are the events that wait in a
queue, that the dispatcher holds, that a worker holds, that a worker's queue has rejected, and that
a worker has processed; only pushes that drop reject an event, and no event is processed more often
than it has been made.  The counters differ by what workers have still to enter. -/
theorem one_place (h : runPipelineScenario max_size config.toPipelineConfig = .ok S)
    {s : (S.program config.toPipelineConfig times).State}
    {x : History config.ingress config.workers}
    (hobserved : S.Observed config.toPipelineConfig times s x) :
    (∑ k, (x.accepted k : Multiset Event) + ∑ k, (s.stowed (.ingress k) : Multiset Event) =
      ∑ q, (waiting s q : Multiset Event) + dispatching s + ∑ k, (working s k : Multiset Event) +
        x.rejected + ∑ k, (x.processed k : Multiset Event)) ∧
    (x.rejected ≠ [] → config.policy = .drop) ∧
    ∑ k, (x.processed k : Multiset Event) ≤ ∑ k, (x.created k : Multiset Event) ∧
    PipelineState.completed s.glob = ownCompleted s.glob +
      Finset.card {k | WorkerLoc.owesOwn (s.loc (.worker k)) = true} ∧
    ownCompleted s.glob = samples s.glob +
      Finset.card {k | WorkerLoc.owesSample (s.loc (.worker k)) = true} ∧
    ((∀ k, WorkerLoc.isMeasuring (s.loc (.worker k)) = false) →
      PipelineState.completed s.glob = ownCompleted s.glob ∧
        ownCompleted s.glob = samples s.glob) := by
  obtain ⟨H⟩ : Nonempty (Program.Protocol (S.program config.toPipelineConfig times)) :=
    runPipelineScenario_protocol h
  have hreach := hobserved.reachable
  obtain ⟨hcompleted, hown⟩ := counters_differ H hreach
  exact ⟨places H hobserved, (recorded H hobserved).rejected, processed_le H hobserved, hcompleted,
    hown, counters_eq H hreach⟩

/-- An event has been rejected, another waits for its worker, and a third has been completed but not
entered by its worker. -/
theorem one_place_rejected :
    ∃ S, runPipelineScenario (2 ^ 58) twoOfEach.toPipelineConfig = .ok S ∧
      ∃ (s : (S.program twoOfEach.toPipelineConfig (twoOfEach.times 0)).State) (x : History 2 2),
        S.Observed twoOfEach.toPipelineConfig (twoOfEach.times 0) s x ∧
          x.rejected.length = 1 ∧ ∑ q, (waiting s q).length = 1 ∧
          PipelineState.completed s.glob = 1 ∧ ownCompleted s.glob = 0 ∧
          (∑ k, (x.accepted k : Multiset Event) +
              ∑ k, (s.stowed (.ingress k) : Multiset Event) =
            ∑ q, (waiting s q : Multiset Event) + dispatching s +
              ∑ k, (working s k : Multiset Event) + x.rejected +
              ∑ k, (x.processed k : Multiset Event)) ∧
          PipelineState.completed s.glob = ownCompleted s.glob +
            Finset.card {k | WorkerLoc.owesOwn (s.loc (.worker k)) = true} := by
  have hrun {S : Pipeline twoOfEach.ingress twoOfEach.workers}
      {y : (S.program twoOfEach.toPipelineConfig (twoOfEach.times 0)).State × History 2 2}
      (h : runPipelineScenario (2 ^ 58) twoOfEach.toPipelineConfig = .ok S)
      (hs : S.observeRun twoOfEach.toPipelineConfig (twoOfEach.times 0) (.initial _) {}
        (rejectingRun S 8) = some y) :
      S.Observed twoOfEach.toPipelineConfig (twoOfEach.times 0) y.1 y.2 ∧
        (∑ k, (y.2.accepted k : Multiset Event) +
            ∑ k, (y.1.stowed (.ingress k) : Multiset Event) =
          ∑ q, (waiting y.1 q : Multiset Event) + dispatching y.1 +
            ∑ k, (working y.1 k : Multiset Event) + y.2.rejected +
            ∑ k, (y.2.processed k : Multiset Event)) ∧
        PipelineState.completed y.1.glob = ownCompleted y.1.glob +
          Finset.card {k | WorkerLoc.owesOwn (y.1.loc (.worker k)) = true} := by
    have hobserved := observed_of_run _ .start hs
    obtain ⟨hplaces, -, -, hcompleted, -⟩ := one_place h hobserved
    exact ⟨hobserved, hplaces, hcompleted⟩
  obtain ⟨hobserved, hplaces, hcompleted⟩ := hrun rfl (Option.some_get (by decide +kernel)).symm
  exact ⟨_, rfl, _, _, hobserved, by decide +kernel, by decide +kernel, by decide +kernel,
    by decide +kernel, hplaces, hcompleted⟩

end Laboratory.QueueLatency
