import Laboratory.Algorithm.Merge
import Laboratory.QueueLatency.Equiv.PipelineHistory

/-!
# The order of events

`order_and_routing`: no ring is used by two producers or two consumers, a worker with a ring of its
own takes only events that are meant for it, and every worker takes the events of one ingress thread
in the order in which that thread has made them.

The events that have been made and not lost on the way stand in a line for each worker: those it has
taken, those in its queue, the one that the dispatcher holds, and those in the dispatcher's queue.
`Ordered` says that the line is a merge of what the ingress threads have pushed.
-/

namespace Laboratory.QueueLatency

open Algorithm Concurrency
open scoped List

/-! ### What a step does to the queues -/

namespace Program

variable {κ τ : Type} [DecidableEq κ] [DecidableEq τ] {P : Program κ τ} {s s' : P.State}
  {c : P.Choice}

/-- The events in the queue `q`, oldest first. -/
def State.content (s : P.State) (q : κ) : List Event :=
  (P.queue q).content (s.queue q).shared

omit [DecidableEq κ] [DecidableEq τ] in
theorem Framed.stowed_of_frame (hs : Framed s) {t : τ} {q : κ} {f : Frame (P.queue q)}
    (hf : (s.queue q).frame t = some f) : s.stowed t = f.stowed ∧ s.carried t = f.carried := by
  have hcalling := (hs.issued t q f hf).1
  unfold State.stowed State.carried
  rw [hcalling]
  simp only [hf, Option.elim_some, and_self]

omit [DecidableEq κ] [DecidableEq τ] in
theorem stowed_of_calling {t : τ} (h : s.calling t = none) :
    s.stowed t = [] ∧ s.carried t = [] := by
  unfold State.stowed State.carried
  rw [h]
  exact ⟨rfl, rfl⟩

/-- The threads other than `t` stay where they are, and keep what they have in hand. -/
def OthersStay (t : τ) (s s' : P.State) : Prop :=
  ∀ t', t' ≠ t → s'.stowed t' = s.stowed t' ∧ s'.carried t' = s.carried t' ∧ s'.loc t' = s.loc t'

theorem othersStay (h : P.step c s = some s') : OthersStay c.thread s s' := by
  intro t ht
  obtain ⟨hframe, hcalling, hloc⟩ := others_eq h ht
  unfold State.stowed State.carried
  rw [hcalling]
  cases s.calling t with
  | none => exact ⟨rfl, rfl, hloc⟩
  | some q =>
    simp only [hframe]
    exact ⟨trivial, trivial, hloc⟩

/-- **What a step of the thread `t` does to the events in the queues.** -/
inductive Flows (t : τ) (input : P.Input) (s s' : P.State) : Prop
  /-- A step of the thread's own code. -/
  | own {g : P.Glob} {l : P.Loc t} (free : s.returning t = none)
      (acts : P.act input t s.glob s.loc = some (.own g l))
      (loc : s'.loc = Function.update s.loc t l) (stowed : s.stowed t = [] ∧ s'.stowed t = [])
      (carried : s.carried t = [] ∧ s'.carried t = [])
      (content : ∀ q, s'.content q = s.content q)
  /-- A call, or a step of an operation that moves no event. -/
  | still {q : κ} {call : Call} (free : s.returning t = none) (issues : P.Issues t (s.loc t) q call)
      (loc : s'.loc = s.loc) (stowed : s'.stowed t = s.stowed t)
      (carried : s'.carried t = s.carried t) (content : ∀ q, s'.content q = s.content q)
  /-- A `push` puts its event into the queue. -/
  | store {q : κ} {ev : Event} {policy : BackpressurePolicy} (free : s.returning t = none)
      (issues : P.Issues t (s.loc t) q (.push ev policy)) (loc : s'.loc = s.loc)
      (stowed : s.stowed t = [] ∧ s'.stowed t = [ev])
      (carried : s.carried t = [] ∧ s'.carried t = [])
      (content : s'.content q = s.content q ++ [ev])
      (others : ∀ q', q' ≠ q → s'.content q' = s.content q')
  /-- A `pop` takes the oldest event out of the queue. -/
  | take {q : κ} {ev : Event} (free : s.returning t = none) (issues : P.Issues t (s.loc t) q .pop)
      (loc : s'.loc = s.loc) (stowed : s.stowed t = [] ∧ s'.stowed t = [])
      (carried : s.carried t = [] ∧ s'.carried t = [ev])
      (content : s.content q = ev :: s'.content q)
      (others : ∀ q', q' ≠ q → s'.content q' = s.content q')
  /-- A return of an operation. -/
  | back {q : κ} {call : Call} {r : Return} (returning : s.returning t = some r)
      (issues : P.Issues t (s.loc t) q call) (answer : call.Answer r)
      (loc : s'.loc = Function.update s.loc t (P.resume t (s.loc t) r))
      (stowed : s.stowed t = call.stores r ∧ s'.stowed t = [])
      (carried : s.carried t = call.takes r ∧ s'.carried t = [])
      (content : ∀ q, s'.content q = s.content q)

omit [DecidableEq τ] in
/-- The contents of the queues after one queue has changed. -/
theorem content_update {q : κ} {x : QState (P.queue q)}
    (hs' : s'.queue = Function.update s.queue q x) :
    s'.content q = (P.queue q).content x.shared ∧
      ∀ q', q' ≠ q → s'.content q' = s.content q' := by
  unfold State.content
  rw [hs']
  refine ⟨by rw [Function.update_self], fun q' hq' => ?_⟩
  rw [Function.update_of_ne hq']

/-- A list of at most one element is known by its elements. -/
theorem eq_of_coe_eq {α : Type} {l l' : List α} (hl : l.length ≤ 1)
    (h : (l' : Multiset α) = l) : l' = l := by
  match l, hl with
  | [], _ => exact (Multiset.coe_eq_zero _).mp h
  | [a], _ => exact Multiset.coe_eq_singleton.mp h

theorem length_stowed_le {ι : Type} {Q : IEventQueue ι} (f : Frame Q) :
    f.stowed.length ≤ 1 ∧ f.carried.length ≤ 1 := by
  cases f with
  | push ev policy pc =>
    refine ⟨?_, Nat.zero_le _⟩
    cases hstored : Q.hasStored pc <;> simp [Frame.stowed, hstored]
  | pop pc =>
    refine ⟨Nat.zero_le _, ?_⟩
    cases htaken : Q.hasTaken pc <;> simp [Frame.carried, htaken]
  | close done => exact ⟨Nat.zero_le _, Nat.zero_le _⟩

theorem call_of_stowed {ι : Type} {Q : IEventQueue ι} {f : Frame Q} {a : Event}
    (h : f.stowed = [a]) : (∃ policy, f.toCall = .push a policy) ∧ f.carried = [] := by
  cases f with
  | push ev policy pc =>
    unfold Frame.stowed at h
    cases hstored : Q.hasStored pc
    · simp [hstored] at h
    · simp only [hstored, if_true, List.cons.injEq, and_true] at h
      exact ⟨⟨policy, by rw [Frame.toCall, h]⟩, rfl⟩
  | pop pc => cases h
  | close done => cases h

theorem call_of_carried {ι : Type} {Q : IEventQueue ι} {f : Frame Q} {a : Event}
    (h : f.carried = [a]) : f.toCall = .pop ∧ f.stowed = [] := by
  cases f with
  | pop pc => exact ⟨rfl, rfl⟩
  | push ev policy pc => cases h
  | close done => cases h

variable [Fintype τ] {H : Program.Protocol P}

/-- What an operation that is through has put into its queue, and taken out of it. -/
theorem stowed_of_reports {q : κ} {f : Frame (P.queue q)} {r : Return}
    (hanswer : f.toCall.Answer r) (hreports : (H.A q).Reports r f) :
    ((H.A q).framePhase f).stowed = (f.toCall.stores r : Multiset Event) ∧
      ((H.A q).framePhase f).carried = (f.toCall.takes r : Multiset Event) := by
  match r, hreports with
  | .pushed true, ⟨a, hev, ha⟩ =>
    rw [ha]
    cases f with
    | push ev policy pc =>
      cases hev
      exact ⟨rfl, rfl⟩
    | pop pc => cases hev
    | close done => cases hev
  | .popped true _, ⟨a, rfl, ha⟩ =>
    rw [ha]
    cases f with
    | pop pc => exact ⟨rfl, rfl⟩
    | _ => exact hanswer.elim
  | .pushed false, ha | .popped false _, ha | .closed, ha =>
    rw [show (H.A q).framePhase f = _ from ha]
    cases f <;> exact ⟨rfl, rfl⟩

/-- The list that a frame has in hand. -/
theorem Good.stowed_eq (hs : Good H s) {t : τ} {q : κ} {f : Frame (P.queue q)}
    (hf : (s.queue q).frame t = some f) (stowed carried : List Event)
    (h : ((H.A q).framePhase f).stowed = (stowed : Multiset Event))
    (h' : ((H.A q).framePhase f).carried = (carried : Multiset Event)) :
    s.stowed t = stowed ∧ s.carried t = carried := by
  obtain ⟨hstowed, hcarried⟩ := stowed_framePhase hs hf
  rw [(hs.stowed_of_frame hf).1, (hs.stowed_of_frame hf).2]
  exact ⟨(eq_of_coe_eq (length_stowed_le f).1 (h.symm.trans hstowed)).symm,
    (eq_of_coe_eq (length_stowed_le f).2 (h'.symm.trans hcarried)).symm⟩

/-- A call moves no event. -/
theorem Good.flows_call {q : κ} {call : Call} (hs' : Good H (s.perform c.thread (.call q call)))
    (hcalling : s.calling c.thread = none)
    (hact : P.act c.input c.thread s.glob s.loc = some (.call q call)) :
    Flows c.thread c.input s (s.perform c.thread (.call q call)) := by
  have hfree : s.returning c.thread = none := by rw [State.returning, hcalling]; rfl
  obtain ⟨hstowed, hcarried⟩ := stowed_of_calling hcalling
  have hqueue : (s.perform c.thread (.call q call)).queue =
      Function.update s.queue q ((s.queue q).call c.thread call) := rfl
  obtain ⟨hcontent, hother⟩ := content_update hqueue
  have hf : ((s.perform c.thread (.call q call)).queue q).frame c.thread =
      some (Frame.enter (P.queue q) call) := by
    simp only [State.perform, Function.update_self, QState.call]
  have hphase : (H.A q).framePhase (Frame.enter (P.queue q) call) = call.phase :=
    (H.refines q).framePhase_enter call
  obtain ⟨hstowed', hcarried'⟩ := hs'.stowed_eq hf [] []
    (by rw [hphase]; cases call <;> rfl) (by rw [hphase]; cases call <;> rfl)
  refine .still hfree ⟨_, _, _, rfl, hact⟩ rfl (hstowed'.trans hstowed.symm)
    (hcarried'.trans hcarried.symm) fun q' => ?_
  by_cases hq : q' = q
  · subst hq
    exact hcontent
  · exact hother q' hq

/-- A return moves no event. -/
theorem Good.flows_return (hs : Good H s) {q : κ} {r : Return}
    (hcalling : s.calling c.thread = some q)
    (hr : (s.queue q).returned c.thread = some r) :
    Flows c.thread c.input s (s.return c.thread q r) := by
  obtain ⟨f, hf, hissued, hanswer, hreports⟩ := hs.returns hcalling hr
  have hqueue : (s.return c.thread q r).queue =
      Function.update s.queue q ((s.queue q).leave c.thread r) := rfl
  obtain ⟨hcontent, hother⟩ := content_update hqueue
  obtain ⟨hstowed, hcarried⟩ := stowed_of_reports hanswer hreports
  obtain ⟨hstowed, hcarried⟩ := hs.stowed_eq hf _ _ hstowed hcarried
  have hcalling' : (s.return c.thread q r).calling c.thread = none := Function.update_self ..
  obtain ⟨hstowed', hcarried'⟩ := stowed_of_calling hcalling'
  refine .back ?_ hissued hanswer rfl ⟨hstowed, hstowed'⟩ ⟨hcarried, hcarried'⟩ fun q' => ?_
  · rw [State.returning, hcalling]
    exact hr
  · by_cases hq : q' = q
    · subst hq
      exact hcontent
    · exact hother q' hq

/-- A step of an operation. -/
theorem Good.flows_inside (hs : Good H s) (hs' : Good H s') {q : κ} {x : QState (P.queue q)}
    (hcalling : s.calling c.thread = some q) (hr : (s.queue q).returned c.thread = none)
    (hx : (s.queue q).step (c.env s) c.thread = some x)
    (heq : s' = { s with queue := Function.update s.queue q x }) :
    Flows c.thread c.input s s' := by
  have hfree : s.returning c.thread = none := by
    rw [State.returning, hcalling]
    exact hr
  have hloc : s'.loc = s.loc := by rw [heq]
  have hqueue : s'.queue = Function.update s.queue q x := by rw [heq]
  obtain ⟨hcontent, hother⟩ := content_update hqueue
  obtain ⟨f, y, hf, hy, hxy⟩ := step_eq_some hx
  have hf' : (s'.queue q).frame c.thread = some y.2 := by
    rw [hqueue, hxy]
    simp only [Function.update_self]
  have hcall : y.2.toCall = f.toCall := toCall_stepFrame hy
  have hissued := (hs.issued _ q f hf).2
  have hmove := (H.refines q).sound (hs.queue q).toReady hf hy
  obtain ⟨hstowed, hcarried⟩ := stowed_framePhase hs hf
  obtain ⟨hstowed', hcarried'⟩ := stowed_framePhase hs' hf'
  have hbefore : s.content q = ((H.A q).store (s.queue q).shared).stored := (H.refines q).content _
  have hafter : s'.content q = ((H.A q).store y.1).stored := by
    rw [hcontent, hxy]
    exact (H.refines q).content _
  obtain ⟨hs₁, hs₂⟩ := hs.stowed_of_frame hf
  obtain ⟨hs₁', hs₂'⟩ := hs'.stowed_of_frame hf'
  rw [← hs₁] at hstowed
  rw [← hs₂] at hcarried
  rcases hmove.move.effect with ⟨h, hst, hca⟩ | ⟨a, h, hst, hst', hca⟩ | ⟨a, h, hca, hca', hst⟩
  · -- The step moves nothing.
    refine .still hfree hissued hloc ?_ ?_ fun q' => ?_
    · rw [hs₁']
      refine eq_of_coe_eq (hs₁ ▸ (length_stowed_le f).1) ?_
      rw [← hstowed', hst, hstowed]
    · rw [hs₂']
      refine eq_of_coe_eq (hs₂ ▸ (length_stowed_le f).2) ?_
      rw [← hcarried', hca, hcarried]
    · by_cases hq : q' = q
      · subst hq
        rw [hafter, hbefore, h]
      · exact hother q' hq
  · -- A push appends.
    have hstored : y.2.stowed = [a] := by
      rw [hst'] at hstowed'
      exact Multiset.coe_eq_singleton.mp hstowed'.symm
    obtain ⟨⟨policy, hpush⟩, hnil⟩ := call_of_stowed hstored
    rw [hcall] at hpush
    rw [hpush] at hissued
    refine .store hfree hissued hloc ⟨?_, hs₁'.trans hstored⟩ ⟨?_, hs₂'.trans hnil⟩ ?_ hother
    · rw [hst] at hstowed
      exact (Multiset.coe_eq_zero _).mp hstowed.symm
    · rw [hnil, hca, hcarried] at hcarried'
      exact (Multiset.coe_eq_zero _).mp hcarried'
    · rw [hafter, hbefore, h]
  · -- A pop takes the oldest.
    have htaken : y.2.carried = [a] := by
      rw [hca'] at hcarried'
      exact Multiset.coe_eq_singleton.mp hcarried'.symm
    obtain ⟨hpop, hnil⟩ := call_of_carried htaken
    rw [hcall] at hpop
    rw [hpop] at hissued
    refine .take hfree hissued hloc ⟨?_, hs₁'.trans hnil⟩ ⟨?_, hs₂'.trans htaken⟩ ?_ hother
    · rw [hnil, hst, hstowed] at hstowed'
      exact (Multiset.coe_eq_zero _).mp hstowed'
    · rw [hca] at hcarried
      exact (Multiset.coe_eq_zero _).mp hcarried.symm
    · rw [hafter, hbefore, h]

theorem Good.flows (hs : Good H s) (hs' : Good H s') (h : P.step c s = some s') :
    Flows c.thread c.input s s' := by
  unfold Program.step at h
  split at h
  · rename_i hcalling
    have hfree : s.returning c.thread = none := by rw [State.returning, hcalling]; rfl
    obtain ⟨hstowed, hcarried⟩ := stowed_of_calling hcalling
    obtain ⟨a, ha, rfl⟩ := Option.map_eq_some_iff.mp h
    cases a with
    | own g l =>
      obtain ⟨hstowed', hcarried'⟩ := stowed_of_calling (s := s.perform c.thread (.own g l))
          hcalling
      exact .own hfree ha rfl ⟨hstowed, hstowed'⟩ ⟨hcarried, hcarried'⟩ fun _ => rfl
    | call q call => exact hs'.flows_call hcalling ha
  · rename_i q hcalling
    split at h
    · rename_i r hr
      cases h
      exact hs.flows_return hcalling hr
    · rename_i hr
      obtain ⟨x, hx, rfl⟩ := Option.map_eq_some_iff.mp h
      exact hs.flows_inside hs' hcalling hr hx rfl

end Program

namespace Pipeline

variable {P W : ℕ} {S : Pipeline P W} {config : PipelineConfig} {times : Times} {now : ℤ}
  {g g' : PipelineState W} {q : S.QueueId} [NeZero W] {x x' : History P W}
  {H : Program.Protocol (S.program config times)} {s s' : (S.program config times).State}
  {c : (S.program config times).Choice}

/-! ### The line of a worker -/

/-- The event that an ingress thread has made and not put into a queue. -/
def pending (s : (S.program config times).State) (k : Fin P) : List Event :=
  if s.stowed (.ingress k) = [] then IngressLoc.event (s.loc (.ingress k)) else []

/-- The events on their way to the workers' queues: the one that the dispatcher holds, and those in
its queue. -/
def upstream (s : (S.program config times).State) : List Event :=
  match S.dispatch with
  | none => []
  | some d => dispatching s ++ s.content d

/-- The events that have come to the worker `w`. -/
def arrived (s : (S.program config times).State) (x : History P W) (w : Fin W) : List Event :=
  x.taken w ++ s.carried (.worker w) ++ s.content (S.sink w)

/-- **The invariant of the order.** But for the event that it has in hand, what an ingress thread
has made is settled: it is in the lines of workers, in its order, or lost. -/
def Ordered (s : (S.program config times).State) (x : History P W) : Prop :=
  ∃ settled : Fin P → List Event, (∀ k, x.created k = settled k ++ pending s k) ∧
    ∀ w, IsMerge settled (arrived s x w ++ upstream s)

/-- A step after which nothing new is in the lines. -/
theorem Ordered.keep (hs : Ordered s x)
    (hcreated : ∀ k settled, x.created k = settled ++ pending s k →
      ∃ settled', settled <+ settled' ∧ x'.created k = settled' ++ pending s' k)
    (hline : ∀ w, arrived s' x' w ++ upstream s' <+ arrived s x w ++ upstream s) :
    Ordered s' x' := by
  obtain ⟨settled, hsettled, hmerge⟩ := hs
  choose settled' hsub hsettled' using fun k => hcreated k _ (hsettled k)
  exact ⟨settled', hsettled', fun w => ((hmerge w).mono hsub).sublist (hline w)⟩

/-- A step in which an ingress thread puts its event into a queue. -/
theorem Ordered.publish (hs : Ordered s x) {k : Fin P} {ev : Event} (hk : pending s k = [ev])
    (hk' : pending s' k = []) (hother : ∀ j, j ≠ k → pending s' j = pending s j)
    (hline : ∀ w, arrived s' x w ++ upstream s' <+ arrived s x w ++ upstream s ++ [ev]) :
    Ordered s' x := by
  obtain ⟨settled, hsettled, hmerge⟩ := hs
  refine ⟨Function.update settled k (settled k ++ [ev]), fun j => ?_, fun w => ?_⟩
  · by_cases hj : j = k
    · subst hj
      rw [Function.update_self, hk', List.append_nil, hsettled, hk]
    · rw [Function.update_of_ne hj, hother j hj]
      exact hsettled j
  · refine IsMerge.sublist ((hmerge w).concat (k := k) ?_ fun j hj => ?_) (hline w)
    · rw [Function.update_self]
    · rw [Function.update_of_ne hj]

/-- Where nothing moves, the lines stay. -/
theorem upstream_eq (hdispatching : dispatching s' = dispatching s)
    (hcontent : ∀ d, S.dispatch = some d → s'.content d = s.content d) :
    upstream s' = upstream s := by
  unfold upstream
  cases hd : S.dispatch with
  | none => rfl
  | some d =>
    simp only
    rw [hdispatching, hcontent d hd]

theorem dispatching_eq {t : Thread P W} (h : Program.OthersStay t s s') (ht : .dispatcher ≠ t) :
    dispatching s' = dispatching s := by
  obtain ⟨hstowed, hcarried, hloc⟩ := h .dispatcher ht
  unfold dispatching
  rw [hstowed, hcarried, hloc]

theorem pending_eq {t : Thread P W} (h : Program.OthersStay t s s') {k : Fin P}
    (ht : .ingress k ≠ t) : pending s' k = pending s k := by
  obtain ⟨hstowed, -, hloc⟩ := h (.ingress k) ht
  unfold pending
  rw [hstowed, hloc]

theorem arrived_eq {t : Thread P W} (h : Program.OthersStay t s s') {w : Fin W}
    (ht : .worker w ≠ t) (hcontent : s'.content (S.sink w) = s.content (S.sink w)) :
    arrived s' x w = arrived s x w := by
  obtain ⟨-, hcarried, -⟩ := h (.worker w) ht
  unfold arrived
  rw [hcarried, hcontent]

/-! ### One step of each thread -/

omit [NeZero W] in
/-- An ingress thread has in hand what it has made. -/
theorem event_ingress {k : Fin P} {l l' : IngressLoc} (h : IngressStep S times k now g l g' l') :
    l'.event = l.event ++ S.makes k now l none := by
  cases h <;> rfl

omit [NeZero W] in
/-- After a push an ingress thread has nothing in hand. -/
theorem event_resumeIngress {v : Ingress} {ev : Event} {measured : Bool} {r : Return}
    {policy : BackpressurePolicy} (h : (Call.push ev policy).Answer r) :
    (resumeIngress config (.push v ev measured) r).event = [] := by
  cases r with
  | pushed ok => cases ok <;> simp only [resumeIngress] <;> split_ifs <;> rfl
  | popped => exact h.elim
  | closed => exact h.elim

theorem pending_of_nil {k : Fin P} {l : IngressLoc} (h : s.stowed (.ingress k) = [])
    (hl : s.loc (.ingress k) = l) : pending s k = l.event := by
  rw [pending, if_pos h, hl]

theorem pending_of_stowed {k : Fin P} {ev : Event} (h : s.stowed (.ingress k) = [ev]) :
    pending s k = [] := by
  rw [pending, h, if_neg (by simp)]

/-- A step of an ingress thread that puts nothing into a queue. -/
theorem Ordered.keep_ingress (hs : Ordered s x) {k : Fin P} {l : IngressLoc} {r : Option Return}
    (hother : Program.OthersStay (.ingress k) s s') (hcontent : ∀ q, s'.content q = s.content q)
    (hk : ∀ settled, x.created k = settled ++ pending s k →
      ∃ settled', settled <+ settled' ∧
        x.created k ++ S.makes k now l r = settled' ++ pending s' k) :
    Ordered s' (S.observeIngress k now l r x) := by
  refine hs.keep (fun j settled hj => ?_) fun w => ?_
  · unfold observeIngress
    by_cases hjk : j = k
    · subst hjk
      simp only [Function.update_self]
      exact hk settled hj
    · simp only [Function.update_of_ne hjk]
      rw [pending_eq hother (by simpa using hjk)]
      exact ⟨settled, .refl _, hj⟩
  · change arrived s' x w ++ upstream s' <+ _
    rw [upstream_eq (dispatching_eq hother nofun) fun d _ => hcontent d,
      arrived_eq hother nofun (hcontent _)]

/-- An event that an ingress thread puts into a queue comes last in the lines. -/
theorem publish_sublist {k : Fin P} {ev : Event} (hother : Program.OthersStay (.ingress k) s s')
    (hcontent : s'.content (S.source k) = s.content (S.source k) ++ [ev])
    (hrest : ∀ q, q ≠ S.source k → s'.content q = s.content q) (w : Fin W) :
    arrived s' x w ++ upstream s' <+ arrived s x w ++ upstream s ++ [ev] := by
  have hdispatching : dispatching s' = dispatching s := dispatching_eq hother nofun
  cases hd : S.dispatch with
  | none =>
    have hnil : ∀ s : (S.program config times).State, upstream s = [] := by
      intro s
      rw [upstream, hd]
    rw [hnil, hnil, List.append_nil, List.append_nil]
    -- Without a dispatcher the queue is the one of a worker:
    -- the event is new for this worker alone.
    by_cases hw : S.sink w = S.source k
    · obtain ⟨-, hcarried, -⟩ := hother (.worker w) nofun
      unfold arrived
      rw [hcarried, hw, hcontent, ← List.append_assoc]
    · rw [arrived_eq hother nofun (hrest _ hw)]
      exact List.sublist_append_left _ _
  | some d =>
    -- With one, the event is behind all those that the dispatcher has not yet routed.
    obtain ⟨hsource, hsink, -⟩ := S.dispatched d hd
    have hup : ∀ s : (S.program config times).State,
        upstream s = dispatching s ++ s.content d := by
      intro s
      rw [upstream, hd]
    rw [hsource k] at hcontent hrest
    rw [hup, hup, arrived_eq hother nofun (hrest _ (hsink w)), hdispatching, hcontent]
    simp only [List.append_assoc]
    exact .refl _

theorem Ordered.step_ingress (hs : Ordered s x) {k : Fin P}
    (hother : Program.OthersStay (.ingress k) s s')
    (h : Program.Flows (.ingress k) now s s') :
    Ordered s' (S.observeIngress k now (s.loc (.ingress k)) (s.returning (.ingress k)) x) := by
  cases h with
  | own free acts loc stowed carried content =>
    rename_i g l
    -- The thread makes its event, or makes none.
    have hloc : s'.loc (.ingress k) = l := by
      rw [loc]
      exact Function.update_self ..
    have hevent := event_ingress (actIngress_own acts)
    refine hs.keep_ingress hother content fun settled hk => ⟨settled, .refl _, ?_⟩
    rw [pending_of_nil stowed.1 rfl] at hk
    rw [free, pending_of_nil stowed.2 hloc, hk, List.append_assoc]
    exact congrArg (settled ++ ·) hevent.symm
  | still free issues loc stowed carried content =>
    refine hs.keep_ingress hother content fun settled hk => ⟨settled, .refl _, ?_⟩
    obtain ⟨v, ev, measured, hl, -, -⟩ := issues_ingress issues
    have hpending : pending s' k = pending s k := by
      unfold pending
      rw [stowed, loc]
    rw [free, hl, hpending, hk]
    exact List.append_nil _
  | store free issues loc stowed carried content others =>
    -- The event goes from its hands into the queue.
    obtain ⟨v, ev, measured, hl, rfl, hc⟩ := issues_ingress issues
    cases hc
    have hobserve :
        S.observeIngress k now (s.loc (.ingress k)) (s.returning (.ingress k)) x = x := by
      rw [free, hl]
      simp [observeIngress, makes, IngressLoc.accepts]
    rw [hobserve]
    exact hs.publish ((pending_of_nil stowed.1 hl).trans rfl) (pending_of_stowed stowed.2)
      (fun j hj => pending_eq hother (by simpa using hj)) (publish_sublist hother content others)
  | take free issues loc stowed carried content others =>
    -- An ingress thread never pops.
    obtain ⟨_, _, _, -, -, hc⟩ := issues_ingress issues
    cases hc
  | back returning issues answer loc stowed carried content =>
    obtain ⟨v, ev, measured, hl, -, hc⟩ := issues_ingress issues
    rename_i q call r
    have hloc : s'.loc (.ingress k) = resumeIngress config (.push v ev measured) r := by
      rw [loc, hl]
      exact Function.update_self ..
    -- The thread has nothing in hand any more: its event is settled.
    refine hs.keep_ingress hother content fun settled hk =>
      ⟨settled ++ pending s k, List.sublist_append_left _ _, ?_⟩
    rw [hc] at answer
    rw [pending_of_nil stowed.2 hloc, event_resumeIngress answer, hk, returning, hl]
    rfl

/-- A step of another thread. -/
theorem Ordered.keep_other (hs : Ordered s x) {t : Thread P W} (hother : Program.OthersStay t s s')
    (ht : ∀ k, .ingress k ≠ t) (hcreated : x'.created = x.created)
    (hline : ∀ w, arrived s' x' w ++ upstream s' <+ arrived s x w ++ upstream s) :
    Ordered s' x' := by
  refine hs.keep (fun j settled hj => ⟨settled, .refl _, ?_⟩) hline
  rw [hcreated, pending_eq hother (ht j)]
  exact hj

omit [NeZero W] in
theorem takes_pop {r : Return} (h : Call.pop.Answer r) :
    WorkerLoc.takes .pop (some r) = Call.pop.takes r := by
  rcases h.pop with ⟨out, rfl⟩ | ⟨ev, rfl⟩
  · rfl
  · rfl

/-- A worker moves at most one event, from its queue to its hands. -/
theorem arrived_worker {k : Fin W} (h : Program.Flows (.worker k) now s s') :
    arrived s' (observeWorker times k now (s.loc (.worker k)) (s.returning (.worker k)) x) k =
      arrived s x k ∧ (∀ q, s'.content q <:+ s.content q) ∧
        ∀ q, q ≠ S.sink k → s'.content q = s.content q := by
  unfold arrived observeWorker
  simp only [Function.update_self]
  cases h with
  | own free acts loc stowed carried content =>
    obtain ⟨htakes, -⟩ := takes_worker (actWorker_own acts)
    refine ⟨?_, fun q => by rw [content], fun q _ => content q⟩
    rw [free, carried.1, carried.2, content]
    simp only [htakes, List.append_nil]
  | still free issues loc stowed carried content =>
    obtain ⟨hl, -, -⟩ := issues_worker issues
    refine ⟨?_, fun q => by rw [content], fun q _ => content q⟩
    rw [free, hl, carried, content]
    exact congrArg (· ++ _ ++ _) (List.append_nil _)
  | store free issues loc stowed carried content others =>
    cases (issues_worker issues).2.2
  | @take q ev free issues loc stowed carried content others =>
    obtain ⟨hl, rfl, -⟩ := issues_worker issues
    refine ⟨?_, fun q => ?_, others⟩
    · rw [free, hl, carried.1, carried.2, content]
      simp [WorkerLoc.takes]
    · by_cases hq : q = S.sink k
      · rw [hq, content]
        exact List.suffix_cons ..
      · rw [others q hq]
  | @back q call r returning issues answer loc stowed carried content =>
    obtain ⟨hl, -, rfl⟩ := issues_worker issues
    refine ⟨?_, fun q => by rw [content], fun q _ => content q⟩
    rw [returning, hl, carried.1, carried.2, content, takes_pop answer, List.append_nil]

theorem Ordered.step_worker (hs : Ordered s x) {k : Fin W}
    (hother : Program.OthersStay (.worker k) s s') (h : Program.Flows (.worker k) now s s') :
    Ordered s' (observeWorker times k now (s.loc (.worker k)) (s.returning (.worker k)) x) := by
  obtain ⟨hself, hsuffix, hrest⟩ := arrived_worker (x := x) h
  have hupstream : upstream s' = upstream s := by
    refine upstream_eq (dispatching_eq hother nofun) fun d hd => hrest d ?_
    exact ((S.dispatched d hd).2.1 k).symm
  refine hs.keep_other hother nofun rfl fun w => ?_
  rw [hupstream]
  refine (List.append_sublist_append_right _).mpr ?_
  by_cases hw : w = k
  · rw [hw, hself]
  · obtain ⟨-, hcarried, -⟩ := hother (.worker w) (by simpa using hw)
    unfold arrived observeWorker
    simp only [Function.update_of_ne hw]
    rw [hcarried]
    exact (List.append_sublist_append_left _).mpr (hsuffix _).sublist

/-- The main thread moves no event. -/
theorem content_main (h : Program.Flows .main now s s') (q : S.QueueId) :
    s'.content q = s.content q := by
  cases h with
  | own free acts loc stowed carried content => exact content q
  | still free issues loc stowed carried content => exact content q
  | back returning issues answer loc stowed carried content => exact content q
  | store free issues loc stowed carried content others =>
    obtain ⟨rest, -, hc⟩ := issues_main issues
    cases hc
  | take free issues loc stowed carried content others =>
    obtain ⟨rest, -, hc⟩ := issues_main issues
    cases hc

theorem Ordered.step_main (hs : Ordered s x) (hother : Program.OthersStay .main s s')
    (h : Program.Flows .main now s s') : Ordered s' x := by
  refine hs.keep_other hother nofun rfl fun w => ?_
  rw [upstream_eq (dispatching_eq hother nofun) fun d _ => content_main h d,
    arrived_eq hother nofun (content_main h _)]

theorem dispatching_of_nil {l : DispatcherLoc W} (h : s.stowed .dispatcher = [])
    (hl : s.loc .dispatcher = l) : dispatching s = s.carried .dispatcher ++ l.event := by
  rw [dispatching, if_pos h, hl]

theorem dispatching_of_stowed {ev : Event} (h : s.stowed .dispatcher = [ev])
    (h' : s.carried .dispatcher = []) : dispatching s = [] := by
  rw [dispatching, h, h', if_neg (by simp)]
  rfl

/-- **What the dispatcher does**: it loses at most the event it holds; or it puts this event into
the queue of a worker; or it takes one out of its own queue. -/
inductive Dispatches (d : S.QueueId) (s s' : (S.program config times).State) : Prop
  | keep (hands : dispatching s' <+ dispatching s) (content : ∀ q, s'.content q = s.content q)
  | store {k : Fin W} {ev : Event} (route : k = Fin.ofNat W ev.target_worker.toNat)
      (hands : dispatching s = [ev]) (hands' : dispatching s' = [])
      (content : s'.content (S.sink k) = s.content (S.sink k) ++ [ev])
      (others : ∀ q, q ≠ S.sink k → s'.content q = s.content q)
  | take {ev : Event} (hands : dispatching s = []) (hands' : dispatching s' = [ev])
      (content : s.content d = ev :: s'.content d)
      (others : ∀ q, q ≠ d → s'.content q = s.content q)

omit [NeZero W] in
/-- What a return leaves in the hands of the dispatcher. -/
theorem event_resumeDispatcher {l : DispatcherLoc W} {call : Call} {r : Return}
    (hissued : (l = .pop ∧ call = .pop) ∨ (∃ ev measured, l = .push ev measured ∧
      ∃ policy, call = .push ev policy) ∨ ∃ k rest, l = .close (k :: rest) ∧ call = .close)
    (hanswer : call.Answer r) :
    (resumeDispatcher config l r).event <+ call.takes r ++
      if call.stores r = [] then l.event else [] := by
  rcases hissued with ⟨rfl, rfl⟩ | ⟨ev, measured, rfl, policy, rfl⟩ | ⟨k, rest, rfl, rfl⟩
  · rcases hanswer.pop with ⟨out, rfl⟩ | ⟨ev, rfl⟩
    · exact .refl _
    · exact .refl _
  · obtain ⟨ok, rfl⟩ := hanswer.push
    have hnil : (resumeDispatcher config (.push ev measured) (.pushed ok) :
        DispatcherLoc W).event = [] := by
      simp only [resumeDispatcher]
      split_ifs <;> rfl
    rw [hnil]
    exact List.nil_sublist _
  · obtain rfl := hanswer.close
    exact .refl _

theorem issues_dispatcher_push {l : DispatcherLoc W} {ev : Event} {policy : BackpressurePolicy}
    (h : (S.program config times).Issues .dispatcher l q (.push ev policy)) :
    (∃ measured, l = .push ev measured) ∧ q = S.sink (Fin.ofNat W ev.target_worker.toNat) := by
  obtain ⟨now, g, loc, rfl, hact⟩ := h
  rcases actDispatcher_call hact with ⟨-, -, hc⟩ | ⟨ev', measured, hl, -, hc⟩ | ⟨_, _, -, -, hc⟩
  · cases hc
  · cases hc
    refine ⟨⟨measured, hl⟩, ?_⟩
    change S.actDispatcher config times g (loc .dispatcher) = _ at hact
    rw [hl] at hact
    cases hact
    rfl
  · cases hc

theorem dispatches {d : S.QueueId} (hd : S.dispatch = some d)
    (h : Program.Flows .dispatcher now s s') : Dispatches d s s' := by
  cases h with
  | @own g l free acts loc stowed carried content =>
    have hloc : s'.loc .dispatcher = l := by
      rw [loc]
      exact Function.update_self ..
    have hevent := event_dispatcher (actDispatcher_own acts)
    refine .keep ?_ content
    rw [dispatching_of_nil stowed.1 rfl, dispatching_of_nil stowed.2 hloc, carried.1, carried.2]
    exact hevent ▸ .refl _
  | still free issues loc stowed carried content =>
    refine .keep ?_ content
    unfold dispatching
    rw [stowed, carried, loc]
  | @store q ev policy free issues loc stowed carried content others =>
    -- What is in its hands goes to the queue of the target worker.
    obtain ⟨⟨measured, hl⟩, rfl⟩ := issues_dispatcher_push issues
    refine .store rfl ?_ (dispatching_of_stowed stowed.2 carried.2) content others
    rw [dispatching_of_nil stowed.1 hl, carried.1]
    rfl
  | @take q ev free issues loc stowed carried content others =>
    rcases issues_dispatcher issues with ⟨hl, hq, -⟩ | ⟨_, _, -, -, hc⟩ | ⟨_, _, -, -, hc⟩
    · have hl' : s'.loc .dispatcher = DispatcherLoc.pop := by rw [loc, hl]
      -- It pops from its own queue only.
      obtain rfl : d = q := Option.some_injective _ (hd.symm.trans hq)
      refine .take ?_ ?_ content others
      · rw [dispatching_of_nil stowed.1 hl, carried.1]
        rfl
      · rw [dispatching_of_nil stowed.2 hl', carried.2]
        rfl
    · cases hc
    · cases hc
  | @back q call r returning issues answer loc stowed carried content =>
    have hloc : s'.loc .dispatcher = resumeDispatcher config (s.loc .dispatcher) r := by
      rw [loc]
      exact Function.update_self ..
    refine .keep ?_ content
    rw [dispatching_of_nil stowed.2 hloc, carried.2, dispatching, stowed.1, carried.1]
    refine event_resumeDispatcher ?_ answer
    rcases issues_dispatcher issues with ⟨hl, -, hc⟩ | ⟨ev, measured, hl, -, hc⟩ |
      ⟨k, rest, hl, -, hc⟩
    · exact .inl ⟨hl, hc⟩
    · exact .inr (.inl ⟨ev, measured, hl, _, hc⟩)
    · exact .inr (.inr ⟨k, rest, hl, hc⟩)

/-- A dispatcher that is done moves no event. -/
theorem content_of_done (hdone : s.loc .dispatcher = DispatcherLoc.done)
    (h : Program.Flows .dispatcher now s s') (q : S.QueueId) : s'.content q = s.content q := by
  have hissues : ∀ {q call},
      ¬ (S.program config times).Issues .dispatcher (s.loc .dispatcher) q call := by
    intro q call hissued
    rw [hdone] at hissued
    rcases issues_dispatcher hissued with ⟨h, -⟩ | ⟨_, _, h, -⟩ | ⟨_, _, h, -⟩ <;> cases h
  cases h with
  | own free acts loc stowed carried content => exact content q
  | still free issues => exact absurd issues hissues
  | store free issues => exact absurd issues hissues
  | take free issues => exact absurd issues hissues
  | back returning issues => exact absurd issues hissues

/-- The dispatcher. -/
theorem Ordered.step_dispatcher (hs : Ordered s x) (hreach : (S.program config times).Reachable s)
    (hother : Program.OthersStay .dispatcher s s') (h : Program.Flows .dispatcher now s s') :
    Ordered s' (observeDispatcher (s.loc .dispatcher) (s.returning .dispatcher) x) := by
  refine hs.keep_other hother nofun rfl fun w => ?_
  change arrived s' x w ++ upstream s' <+ _
  obtain ⟨-, hcarried, -⟩ := hother (.worker w) nofun
  cases hd : S.dispatch with
  | none =>
    have hcontent := content_of_done ((consistent hreach .dispatcher).1 hd) h
    have hnil : ∀ s : (S.program config times).State, upstream s = [] := by
      intro s
      rw [upstream, hd]
    rw [hnil, hnil, arrived_eq hother nofun (hcontent _)]
  | some d =>
    have hup : ∀ s : (S.program config times).State,
        upstream s = dispatching s ++ s.content d := by
      intro s
      rw [upstream, hd]
    have hsink := (S.dispatched d hd).2.1
    rw [hup, hup]
    cases dispatches hd h with
    | keep hands content =>
      rw [arrived_eq hother nofun (content _), content]
      exact (List.append_sublist_append_left _).mpr ((List.append_sublist_append_right _).mpr hands)
    | @store k ev route hands hands' content others =>
      rw [hands, hands', others d (hsink k).symm]
      by_cases hw : S.sink w = S.sink k
      · unfold arrived
        rw [hcarried, hw, content]
        simp only [List.append_assoc, List.nil_append]
        exact .refl _
      · rw [arrived_eq hother nofun (others _ hw)]
        exact (List.append_sublist_append_left _).mpr (List.sublist_append_right _ _)
    | @take ev hands hands' content others =>
      rw [arrived_eq hother nofun (others _ (hsink w)), hands, hands', content]
      exact .refl _

theorem content_initial (H : Program.Protocol (S.program config times)) (q : S.QueueId) :
    (Program.State.initial (S.program config times)).content q = [] := by
  have hcontent : (Program.State.initial (S.program config times)).content q =
      ((H.A q).store (S.queue q).init).stored := (H.refines q).content _
  have hinit : (H.A q).store (S.queue q).init = ⟨[], 0, H.bound q, false⟩ :=
    (H.refines q).init_store
  rw [hcontent, hinit]

theorem ordered_initial (H : Program.Protocol (S.program config times)) :
    Ordered (Program.State.initial (S.program config times)) {} := by
  have hstart : DispatcherLoc.event ((S.program config times).start .dispatcher) = [] := by
    change DispatcherLoc.event
      (if S.dispatch.isSome then DispatcherLoc.pop else DispatcherLoc.done) = []
    split_ifs <;> rfl
  have hupstream : upstream (Program.State.initial (S.program config times)) = [] := by
    unfold upstream
    cases S.dispatch with
    | none => rfl
    | some d =>
      simp only
      rw [content_initial H, List.append_nil]
      exact hstart
  refine ⟨fun _ => [], fun k => rfl, fun w => ?_⟩
  rw [hupstream, arrived, content_initial H]
  exact IsMerge.nil

/-- **The lines of every run.** -/
theorem ordered (H : Program.Protocol (S.program config times)) (h : S.Observed config times s x) :
    Ordered s x := by
  induction h with
  | start => exact ordered_initial H
  | @step s s' x c hobserved hstep ih =>
    have hreach := hobserved.reachable
    have hgood : Program.Good H s := Program.good_of_reachableIf hreach
    have hflows := hgood.flows (hgood.step hreach hstep) hstep
    have hother := Program.othersStay hstep
    obtain ⟨t, now, spurious, wake, addr⟩ := c
    rcases t with k | _ | k | _
    · exact ih.step_ingress hother hflows
    · exact ih.step_dispatcher hreach hother hflows
    · exact ih.step_worker hother hflows
    · exact ih.step_main hother hflows

/-- A worker takes the events of each ingress thread in their order. -/
theorem isMerge_taken (H : Program.Protocol (S.program config times))
    (h : S.Observed config times s x) (w : Fin W) : IsMerge x.created (x.taken w) := by
  obtain ⟨settled, hsettled, hmerge⟩ := ordered H h
  refine ((hmerge w).mono fun k => ?_).sublist ?_
  · rw [hsettled k]
    exact List.sublist_append_left _ _
  · rw [arrived, List.append_assoc, List.append_assoc]
    exact List.sublist_append_left _ _

/-! ### Routing -/

/-- The ingress thread `k` may have made the event. -/
def Made (S : Pipeline P W) (k : Fin P) (ev : Event) : Prop :=
  ∃ seq now, ev = S.newEvent k seq now

/-- The event is meant for the queue of the worker `w`. -/
def Fits (S : Pipeline P W) (w : Fin W) (ev : Event) : Prop :=
  (S.dispatch = none → ∃ k, S.source k = S.sink w ∧ S.Made k ev) ∧
    (S.dispatch.isSome → S.sink (Fin.ofNat W ev.target_worker.toNat) = S.sink w)

/-- **The invariant of the routing.** -/
structure Routed (s : (S.program config times).State) (x : History P W) : Prop where
  made : ∀ k, ∀ ev ∈ x.created k, S.Made k ev
  fits : ∀ w, ∀ ev ∈ arrived s x w, S.Fits w ev

omit [NeZero W] in
theorem made_makes {k : Fin P} {l : IngressLoc} {r : Option Return} {ev : Event}
    (h : ev ∈ S.makes k now l r) : S.Made k ev := by
  unfold makes at h
  split at h
  · rw [List.mem_singleton.mp h]
    exact ⟨_, _, rfl⟩
  · cases h

/-- What has come to a worker after an event has been put into a queue. -/
theorem mem_arrived_store {t : Thread P W} {w : Fin W} {ev ev' : Event}
    (hother : Program.OthersStay t s s') (ht : .worker w ≠ t)
    (hcontent : s'.content q = s.content q ++ [ev])
    (hrest : ∀ q', q' ≠ q → s'.content q' = s.content q') (h : ev' ∈ arrived s' x w) :
    ev' ∈ arrived s x w ∨ (S.sink w = q ∧ ev' = ev) := by
  by_cases hw : S.sink w = q
  · obtain ⟨-, hcarried, -⟩ := hother (.worker w) ht
    unfold arrived at h ⊢
    rw [hcarried, hw, hcontent, ← List.append_assoc] at h
    rw [hw]
    rcases List.mem_append.mp h with h | h
    · exact .inl h
    · exact .inr ⟨rfl, List.mem_singleton.mp h⟩
  · rw [arrived_eq hother ht (hrest _ hw)] at h
    exact .inl h

theorem Routed.step_ingress (hs : Routed s x) (hordered : Ordered s x) {k : Fin P}
    (hother : Program.OthersStay (.ingress k) s s') (h : Program.Flows (.ingress k) now s s') :
    Routed s' (S.observeIngress k now (s.loc (.ingress k)) (s.returning (.ingress k)) x) := by
  refine ⟨fun j ev hev => ?_, fun w ev hev => ?_⟩
  · unfold observeIngress at hev
    by_cases hj : j = k
    · subst hj
      simp only [Function.update_self] at hev
      rcases List.mem_append.mp hev with hev | hev
      · exact hs.made j ev hev
      · exact made_makes hev
    · simp only [Function.update_of_ne hj] at hev
      exact hs.made j ev hev
  · change ev ∈ arrived s' x w at hev
    cases h with
    | own free acts loc stowed carried content =>
      rw [arrived_eq hother nofun (content _)] at hev
      exact hs.fits w ev hev
    | still free issues loc stowed carried content =>
      rw [arrived_eq hother nofun (content _)] at hev
      exact hs.fits w ev hev
    | @store q ev' policy free issues loc stowed carried content others =>
      obtain ⟨v, ev', measured, hl, rfl, hc⟩ := issues_ingress issues
      cases hc
      rcases mem_arrived_store hother nofun content others hev with hev | ⟨hw, rfl⟩
      · exact hs.fits w ev hev
      · obtain ⟨settled, hsettled, -⟩ := hordered
        -- The event is in the hands of the thread, so that the thread has made it.
        have hmade : S.Made k ev := by
          refine hs.made k ev ?_
          rw [hsettled k, pending_of_nil stowed.1 hl]
          exact List.mem_append_right _ (List.mem_singleton_self ev)
        refine ⟨fun _ => ⟨k, hw.symm, hmade⟩, fun hsome => ?_⟩
        -- With a dispatcher, ingress threads do not push to the workers' queues.
        obtain ⟨d, hd⟩ := Option.isSome_iff_exists.mp hsome
        obtain ⟨hsource, hsink, -⟩ := S.dispatched d hd
        exact absurd (hw.trans (hsource k)) (hsink w)
    | take free issues loc stowed carried content others =>
      obtain ⟨_, _, _, -, -, hc⟩ := issues_ingress issues
      cases hc
    | back returning issues answer loc stowed carried content =>
      rw [arrived_eq hother nofun (content _)] at hev
      exact hs.fits w ev hev

theorem Routed.step_dispatcher (hs : Routed s x) (hreach : (S.program config times).Reachable s)
    (hother : Program.OthersStay .dispatcher s s') (h : Program.Flows .dispatcher now s s') :
    Routed s' (observeDispatcher (s.loc .dispatcher) (s.returning .dispatcher) x) := by
  refine ⟨hs.made, fun w ev hev => ?_⟩
  change ev ∈ arrived s' x w at hev
  cases hd : S.dispatch with
  | none =>
    have hcontent := content_of_done ((consistent hreach .dispatcher).1 hd) h
    rw [arrived_eq hother nofun (hcontent _)] at hev
    exact hs.fits w ev hev
  | some d =>
    cases dispatches hd h with
    | keep hands content =>
      rw [arrived_eq hother nofun (content _)] at hev
      exact hs.fits w ev hev
    | @store k ev' route hands hands' content others =>
      rcases mem_arrived_store hother nofun content others hev with hev | ⟨hw, rfl⟩
      · exact hs.fits w ev hev
      · refine ⟨fun hnone => ?_, fun _ => ?_⟩
        · rw [hd] at hnone
          cases hnone
        · rw [← route, hw]
    | take hands hands' content others =>
      rw [arrived_eq hother nofun (others _ ((S.dispatched d hd).2.1 w))] at hev
      exact hs.fits w ev hev

theorem Routed.step_worker (hs : Routed s x) {k : Fin W}
    (hother : Program.OthersStay (.worker k) s s') (h : Program.Flows (.worker k) now s s') :
    Routed s' (observeWorker times k now (s.loc (.worker k)) (s.returning (.worker k)) x) := by
  obtain ⟨hself, hsuffix, -⟩ := arrived_worker (x := x) h
  refine ⟨hs.made, fun w ev hev => hs.fits w ev ?_⟩
  by_cases hw : w = k
  · rw [hw] at hev ⊢
    rwa [hself] at hev
  · obtain ⟨-, hcarried, -⟩ := hother (.worker w) (by simpa using hw)
    unfold arrived observeWorker at hev
    simp only [Function.update_of_ne hw] at hev
    rw [hcarried] at hev
    exact ((List.append_sublist_append_left _).mpr (hsuffix _).sublist).subset hev

theorem routed (H : Program.Protocol (S.program config times)) (h : S.Observed config times s x) :
    Routed s x := by
  induction h with
  | start =>
    refine ⟨fun k ev hev => absurd hev List.not_mem_nil, fun w ev hev => ?_⟩
    rw [arrived, content_initial H] at hev
    cases hev
  | @step s s' x c hobserved hstep ih =>
    have hreach := hobserved.reachable
    have hgood : Program.Good H s := Program.good_of_reachableIf hreach
    have hflows := hgood.flows (hgood.step hreach hstep) hstep
    have hother := Program.othersStay hstep
    obtain ⟨t, now, spurious, wake, addr⟩ := c
    rcases t with k | _ | k | _
    · exact ih.step_ingress (ordered H hobserved) hother hflows
    · exact ih.step_dispatcher hreach hother hflows
    · exact ih.step_worker hother hflows
    · refine ⟨ih.made, fun w ev hev => ih.fits w ev ?_⟩
      rwa [arrived_eq hother nofun (content_main hflows _)] at hev

end Pipeline

open Pipeline

variable {config : AcceptedConfig} {max_size : ℕ} {times : Times}
  {S : Pipeline config.ingress config.workers}

/-- The remainder by the number of workers is the index of a worker. -/
theorem toNat_mod_lt (a : UInt64) {n : ℕ} (hn : 0 < n) : (a % UInt64.ofNat n).toNat < n := by
  have hlt := (a % UInt64.ofNat n).toNat_lt
  by_cases h : n < 2 ^ 64
  · have hnat : (UInt64.ofNat n).toNat = n := UInt64.toNat_ofNat_of_lt' h
    rw [UInt64.toNat_mod, hnat]
    exact Nat.mod_lt _ hn
  · omega

theorem runDispatchLocalSpscPipeline_routes
    (h : runDispatchLocalSpscPipeline max_size config = .ok S)
    {w : Fin config.workers} {k : Fin config.ingress} {ev : Event} (hmade : S.Made k ev)
    (hfits : S.Fits w ev) : ev.target_worker = UInt64.ofNat w := by
  obtain ⟨Q, -, h⟩ := bind_eq_ok h
  obtain ⟨R, -, h⟩ := bind_eq_ok h
  cases h
  obtain ⟨seq, now, rfl⟩ := hmade
  have hw := Option.some_injective _ (hfits.2 rfl)
  have hval : (_ % UInt64.ofNat config.workers).toNat % config.workers = (w : ℕ) :=
    congrArg Fin.val hw
  rw [Nat.mod_eq_of_lt (toNat_mod_lt _ (NeZero.pos config.workers))] at hval
  rw [← hval]
  exact UInt64.ofNat_toNat.symm

theorem runDirectLocalSpscPipeline_routes (h : runDirectLocalSpscPipeline max_size config = .ok S)
    {w : Fin config.workers} {ev : Event} (hfits : S.Fits w ev) :
    ev.target_worker = UInt64.ofNat w := by
  obtain ⟨R, -, h⟩ := bind_eq_ok h
  cases h
  obtain ⟨k, hk, seq, now, rfl⟩ := hfits.1 rfl
  change UInt64.ofNat (k % config.workers) = UInt64.ofNat w
  rw [← show Fin.ofNat config.workers k = w from hk]
  rfl

/-- Where every worker has a ring of its own, its events are meant for it. -/
theorem target_worker_eq (h : runPipelineScenario max_size config.toPipelineConfig = .ok S)
    (htop : config.topology ≠ .sharedQueue) {w : Fin config.workers} {k : Fin config.ingress}
    {ev : Event} (hmade : S.Made k ev) (hfits : S.Fits w ev) :
    ev.target_worker = UInt64.ofNat w := by
  rw [runPipelineScenario_eq] at h
  split at h
  · rename_i hshared
    exact absurd hshared htop
  · exact runDispatchLocalSpscPipeline_routes h hmade hfits
  · exact runDirectLocalSpscPipeline_routes h hfits

/-- **Discipline, routing and order.** A queue that is used by two threads that push, or by two that
pop, is no ring for one producer and one consumer.  Where every worker has a ring of its own, it
processes only events that are meant for it.  And every worker takes the events of one ingress
thread in the order in which that thread has made them. -/
theorem order_and_routing (h : runPipelineScenario max_size config.toPipelineConfig = .ok S) :
    (∀ q, ∃ kind capacity options,
      makeQueue (Thread config.ingress config.workers) max_size kind capacity options =
        .ok (S.queue q) ∧
      (kind = .spscRing → ∃ p k, ∀ s : (S.program config.toPipelineConfig times).State,
        (S.program config.toPipelineConfig times).Reachable s →
          ∀ t f, (s.queue q).frame t = some f → SpscRingQueue.Discipline p k t f.toCall)) ∧
    ∀ {s : (S.program config.toPipelineConfig times).State}
      {x : History config.ingress config.workers},
      S.Observed config.toPipelineConfig times s x →
        (config.topology ≠ .sharedQueue → ∀ w, ∀ ev ∈ x.processed w,
          ev.target_worker = UInt64.ofNat w) ∧
        (∀ w, IsMerge x.created (x.taken w)) ∧
        ∀ w k, (∀ j, ∀ ev ∈ x.created j, ev ∈ x.created k → j = k) →
          (x.taken w).filter (· ∈ x.created k) <+ x.created k := by
  obtain ⟨H⟩ : Nonempty (Program.Protocol (S.program config.toPipelineConfig times)) :=
    runPipelineScenario_protocol h
  refine ⟨fun q => ?_, fun {s x} hobserved => ⟨fun htop w ev hev => ?_, isMerge_taken H hobserved,
    fun w k hdisjoint => (isMerge_taken H hobserved w).filter_sublist hdisjoint⟩⟩
  · obtain ⟨kind, capacity, options, p, k, hQ, hissues⟩ := runPipelineScenario_discipline h q
    refine ⟨kind, capacity, options, hQ, fun hkind => ⟨p, k, fun s hreach t f hf => ?_⟩⟩
    have hissued := ((Program.framed_of_reachableIf hreach).issued t q f hf).2
    exact hissues s hreach t _ hissued hkind
  · have hrouted := routed H hobserved
    have htaken : ev ∈ x.taken w := by
      rw [(recorded H hobserved).taken w]
      exact List.mem_append_left _ hev
    have hfits : S.Fits w ev := by
      refine hrouted.fits w ev ?_
      rw [arrived, List.append_assoc]
      exact List.mem_append_left _ htaken
    obtain ⟨k, hk⟩ := (isMerge_taken H hobserved w).exists_mem htaken
    exact target_worker_eq h htop (hrouted.made k ev hk) hfits

/-- The worker `0` takes the first event of the first ingress thread, and the worker `1` the second
event of the second. -/
theorem order_and_routing_two :
    ∃ S, runPipelineScenario (2 ^ 58) twoOfEach.toPipelineConfig = .ok S ∧
      ∃ (s : (S.program twoOfEach.toPipelineConfig (twoOfEach.times 0)).State) (x : History 2 2),
        S.Observed twoOfEach.toPipelineConfig (twoOfEach.times 0) s x ∧
          (x.taken 0).map (fun ev => ev.id.toNat) = [0] ∧
          (x.taken 1).map (fun ev => ev.id.toNat) = [2 ^ 48 + 1] ∧
          (∀ w, ∀ ev ∈ x.processed w, ev.target_worker = UInt64.ofNat w) ∧
          ∀ w, IsMerge x.created (x.taken w) := by
  have hrun {S : Pipeline twoOfEach.ingress twoOfEach.workers}
      {y : (S.program twoOfEach.toPipelineConfig (twoOfEach.times 0)).State × History 2 2}
      (h : runPipelineScenario (2 ^ 58) twoOfEach.toPipelineConfig = .ok S)
      (hs : S.observeRun twoOfEach.toPipelineConfig (twoOfEach.times 0) (.initial _) {}
        (droppingRun S) = some y) :
      S.Observed twoOfEach.toPipelineConfig (twoOfEach.times 0) y.1 y.2 ∧
        (∀ w, ∀ ev ∈ y.2.processed w, ev.target_worker = UInt64.ofNat w) ∧
        ∀ w, IsMerge y.2.created (y.2.taken w) := by
    have hobserved := observed_of_run _ .start hs
    obtain ⟨hrouted, hmerge, -⟩ := (order_and_routing h).2 hobserved
    exact ⟨hobserved, hrouted (by decide), hmerge⟩
  obtain ⟨hobserved, hrouted, hmerge⟩ := hrun rfl (Option.some_get (by decide +kernel)).symm
  exact ⟨_, rfl, _, _, hobserved, by decide +kernel, by decide +kernel, hrouted, hmerge⟩

end Laboratory.QueueLatency
