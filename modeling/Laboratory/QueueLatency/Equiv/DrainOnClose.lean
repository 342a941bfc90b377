import Laboratory.QueueLatency.DrainOnClose
import Laboratory.QueueLatency.Equiv.Channel
import Laboratory.QueueLatency.Equiv.MakeQueue

/-!
# What a shutdown leaves behind

`drained_on_close`: whatever queue `makeQueue` returns, after a shutdown the consumers have returned
exactly the events that the producers have pushed, provided that the closing step is heeded
(`CloseHeeded`).

The proviso is needed: three of the four queues test for an event and test `closed_` in two steps,
and a consumer that has found the queue empty leaves it on the second test, whatever has been
pushed in between (`event_lost`).
-/

namespace Laboratory.QueueLatency

namespace DrainOnClose

open Concurrency

variable {m n : ℕ} {Q : IEventQueue (Thread m n)}

/-- The closing step finds the queue empty, or a consumer that will look into it again: one that
still pops and has not just found it empty. -/
def CloseHeeded (s : (drainOnClose Q).State) (c : (drainOnClose Q).Choice) : Prop :=
  (s.queue ()).closing c.thread = true →
    Q.content (s.queue ()).shared = [] ∨
      ∃ k, ClientLoc.isDone (s.loc (.consumer k)) = false ∧
        (s.queue ()).foundEmpty (.consumer k) = false

instance (s : (drainOnClose Q).State) (c : (drainOnClose Q).Choice) :
    Decidable (CloseHeeded s c) :=
  inferInstanceAs (Decidable (_ → _ ∨ _))

theorem isDone_eq_false_iff {l : ClientLoc} : l.isDone = false ↔ l = .running := by
  cases l <;> decide

/-! ### Who calls what -/

theorem issues_producer {k : Fin m} {l : ClientLoc} {c : Call}
    (h : (drainOnClose Q).Issues (.producer k) l () c) :
    l = .running ∧ ∃ ev policy, c = .push ev policy := by
  obtain ⟨input, g, loc, rfl, hact⟩ := h
  simp only [drainOnClose, act] at hact
  split at hact
  · rename_i hl
    split_ifs at hact
    · cases hact
      exact ⟨hl, _, _, rfl⟩
    · cases hact
  · cases hact

theorem issues_consumer {k : Fin n} {l : ClientLoc} {c : Call}
    (h : (drainOnClose Q).Issues (.consumer k) l () c) : l = .running ∧ c = .pop := by
  obtain ⟨input, g, loc, rfl, hact⟩ := h
  simp only [drainOnClose, act] at hact
  split at hact
  · rename_i hl
    cases hact
    exact ⟨hl, rfl⟩
  · cases hact

theorem issues_closer {l : CloserLoc} {c : Call}
    (h : (drainOnClose Q).Issues .closer l () c) : l = .close ∧ c = .close := by
  obtain ⟨input, g, loc, rfl, hact⟩ := h
  simp only [drainOnClose, act] at hact
  split at hact
  · split_ifs at hact
    cases hact
  · rename_i hl
    cases hact
    exact ⟨hl, rfl⟩
  · cases hact

theorem own_producer {input : Input} {k : Fin m} {g g' : Unit} {loc : ∀ t, Loc t} {l : ClientLoc}
    (h : (drainOnClose Q).act input (.producer k) g loc = some (.own g' l)) :
    loc (.producer k) = ClientLoc.running ∧ l = .done := by
  simp only [drainOnClose, act] at h
  split at h
  · rename_i hl
    split_ifs at h
    · cases h
    · cases h
      exact ⟨hl, rfl⟩
  · cases h

theorem own_consumer {input : Input} {k : Fin n} {g g' : Unit} {loc : ∀ t, Loc t} {l : ClientLoc}
    (h : (drainOnClose Q).act input (.consumer k) g loc = some (.own g' l)) : False := by
  simp only [drainOnClose, act] at h
  split at h <;> cases h

theorem own_closer {input : Input} {g g' : Unit} {loc : ∀ t, Loc t} {l : CloserLoc}
    (h : (drainOnClose Q).act input .closer g loc = some (.own g' l)) :
    (∀ k : Fin m, loc (.producer k) = ClientLoc.done) ∧ l = .close := by
  simp only [drainOnClose, act] at h
  split at h
  · split_ifs at h with hdone
    cases h
    refine ⟨fun k => ?_, rfl⟩
    have hk := hdone k
    revert hk
    cases (loc (.producer k) : ClientLoc) with
    | running => simp [ClientLoc.isDone]
    | done => intro; rfl
  · cases h
  · cases h

/-- Producers push until they are done, and consumers pop until they are. -/
def channel (Q : IEventQueue (Thread m n)) : Channel (drainOnClose Q) () where
  pushes
    | .producer _, l => l = ClientLoc.running
    | _, _ => False
  pops
    | .consumer _, l => l = ClientLoc.running
    | _, _ => False
  issues_push := by
    rintro (k | k | _) l ev policy h
    · exact (issues_producer h).1
    · cases (issues_consumer h).2
    · cases (issues_closer h).2
  issues_pop := by
    rintro (k | k | _) l h
    · obtain ⟨-, ev, policy, hc⟩ := issues_producer h
      cases hc
    · exact (issues_consumer h).1
    · cases (issues_closer h).2
  pops_only := fun _ _ => rfl
  stop := by
    rintro (k | k | _) l input g h
    · obtain ⟨-, ev, policy, hc⟩ := issues_producer h
      cases hc
    · rfl
    · rfl
  own_pushes := by
    rintro input (k | k | _) g loc g' l hact hl
    · exact (own_producer hact).1
    · cases hl
    · cases hl
  own_pops := by
    rintro input (k | k | _) g loc g' l hact hl
    · cases hl
    · exact (own_consumer hact).elim
    · cases hl
  resume_pushes := by
    rintro (k | k | _) l r h
    · exact h
    · cases h
    · cases h
  resume_pops := by
    rintro (k | k | _) l r hr h
    · cases h
    · cases r with
      | popped ok out =>
        cases ok
        · exact absurd rfl (hr out)
        · exact h
      | pushed => exact h
      | closed => exact h
    · cases h

/-! ### The run -/

/-- The rule for the calls: with a ring for one producer and one consumer there are only these. -/
theorem disciplined {kind : QueueKind} (hspsc : kind = .spscRing → m = 1 ∧ n = 1)
    {t : Thread m n} {l : Loc t} {c : Call} (h : (drainOnClose Q).Issues t l () c) :
    Disciplined kind (if h : 0 < m then .producer ⟨0, h⟩ else .closer)
      (if h : 0 < n then .consumer ⟨0, h⟩ else .closer) t c := by
  intro hkind
  obtain ⟨rfl, rfl⟩ := hspsc hkind
  cases t with
  | producer k =>
    obtain ⟨-, ev, policy, rfl⟩ := issues_producer h
    rw [Subsingleton.elim k 0]
    rfl
  | consumer k =>
    obtain ⟨-, rfl⟩ := issues_consumer h
    rw [Subsingleton.elim k 0]
    rfl
  | closer =>
    obtain ⟨-, rfl⟩ := issues_closer h
    trivial

/-- The producers have ended when the closer has joined them. -/
theorem joined {s : (drainOnClose Q).State} (h : (drainOnClose Q).Reachable s)
    (hjoin : s.loc .closer ≠ CloserLoc.join) (k : Fin m) :
    s.loc (.producer k) = ClientLoc.done := by
  induction h with
  | refl => exact absurd rfl hjoin
  | @tail s s' hreach hstep ih =>
    obtain ⟨⟨t, input, _, _, _⟩, -, hstep⟩ := hstep
    rcases Program.loc_cases hstep with hloc | ⟨l, hloc, h⟩ <;> rw [hloc] at hjoin ⊢
    · exact ih hjoin
    · cases t with
      | producer k' =>
        rw [Function.update_of_ne (by simp)] at hjoin
        by_cases hk : k = k'
        · subst hk
          rw [Function.update_self]
          rcases h with ⟨g, hact⟩ | ⟨q, r, -, -, rfl⟩
          · exact (own_producer hact).2
          · exact ih hjoin
        · rw [Function.update_of_ne (by simpa using hk)]
          exact ih hjoin
      | consumer k' =>
        rw [Function.update_of_ne (by simp)] at hjoin ⊢
        exact ih hjoin
      | closer =>
        rw [Function.update_of_ne (by simp)]
        rcases h with ⟨g, hact⟩ | ⟨q, r, hcalling, -, -⟩
        · exact (own_closer hact).1 k
        · obtain ⟨f, -, hissued⟩ := (Program.framed_of_reachableIf hreach).issues hcalling
          refine ih ?_
          rw [(issues_closer hissued).1]
          rintro ⟨⟩

theorem closedLast {s : (drainOnClose Q).State} (h : (drainOnClose Q).Reachable s) :
    (channel Q).ClosedLast s := by
  intro t done hf t' hpush
  have hissued := ((Program.framed_of_reachableIf h).issued t () _ hf).2
  cases t with
  | producer k =>
    obtain ⟨-, ev, policy, hc⟩ := issues_producer hissued
    cases hc
  | consumer k => cases (issues_consumer hissued).2
  | closer =>
    cases t' with
    | producer k =>
      have hdone := joined h (k := k) (by rw [(issues_closer hissued).1]; rintro ⟨⟩)
      rw [show s.loc (.producer k) = ClientLoc.running from hpush] at hdone
      cases hdone
    | consumer k => exact hpush
    | closer => exact hpush

variable {H : Program.Protocol (drainOnClose Q)} {s : (drainOnClose Q).State}

theorem draining (h : (drainOnClose Q).ReachableIf CloseHeeded s) :
    (channel Q).Draining H (fun _ => True) s := by
  refine Channel.draining_of_reachableIf (fun s => closedLast) ?_ h
  intro s c hok hf
  refine (hok hf).imp ?_ ?_
  · intro hnil ev hev
    change ev ∈ Q.content _ at hev
    rw [hnil] at hev
    cases hev
  · rintro ⟨k, hk, hfound⟩
    exact ⟨.consumer k, isDone_eq_false_iff.mp hk, hfound⟩

/-- The closer has closed the queue when it is done. -/
theorem closed_of_done (h : (drainOnClose Q).Reachable s)
    (hdone : s.loc .closer = CloserLoc.done) : (H.store s ()).closed = true := by
  induction h with
  | refl => cases hdone
  | @tail s s' hreach hstep ih =>
    have hgood : Program.Good H s := Program.good_of_reachableIf hreach
    obtain ⟨⟨t, input, _, _, _⟩, -, hstep⟩ := hstep
    apply hgood.closed_mono hstep
    by_cases ht : t = .closer
    · subst ht
      rcases Program.loc_cases hstep with hloc | ⟨l, hloc, ⟨g, hact⟩ | ⟨q, r, hcalling, hr, -⟩⟩
      · rw [hloc] at hdone
        exact ih hdone
      · rw [hloc, Function.update_self, (own_closer hact).2] at hdone
        cases hdone
      · exact hgood.closed_of_returned hcalling hr fun hissued => (issues_closer hissued).2
    · rw [(Program.others_eq hstep (Ne.symm ht)).2.2] at hdone
      exact ih hdone

/-- **Drain on close.** After the shutdown of a queue that `makeQueue` has returned, the consumers
have returned every event whose `push` has returned `true`, each exactly once, if the closing step
was heeded.  A ring for one producer and one consumer has one of each, and a capacity that leaves
room for the unused slot. -/
theorem drained_on_close {max_size : ℕ} {kind : QueueKind} {capacity : ℕ} {options : QueueOptions}
    (hQ : makeQueue (Thread m n) max_size kind capacity options = .ok Q)
    (hspsc : kind = .spscRing → (m = 1 ∧ n = 1) ∧ capacity + 1 < 2 ^ 64)
    (h : (drainOnClose Q).ReachableIf CloseHeeded s) (hcloser : s.loc .closer = CloserLoc.done)
    (hconsumers : ∀ k, s.loc (.consumer k) = ClientLoc.done) :
    (s.queue ()).pushed.Perm (s.queue ()).popped := by
  obtain ⟨bound, A, hR⟩ := makeQueue_follows _ _ hQ
  let H : Program.Protocol (drainOnClose Q) :=
    { bound := fun _ => bound
      A := fun _ => A
      Allowed := _
      refines := fun _ => hR
      allowed := fun _ hissued => disciplined (fun hkind => (hspsc hkind).1) hissued }
  have hgood : Program.Good H s := Program.good_of_reachableIf h
  have hgone : ∀ t, ¬ (channel Q).pops t (s.loc t) := by
    rintro (k | k | _) hpop
    · exact hpop
    · exact absurd ((hconsumers k).symm.trans hpop) (by rintro ⟨⟩)
    · exact hpop
  obtain ⟨hnone, heq⟩ := (draining (H := H) h).drained hgood (closed_of_done h.reachable hcloser)
    hgone
  have hnil : ((drainOnClose Q).queue ()).content (s.queue ()).shared = [] :=
    List.eq_nil_iff_forall_not_mem.mpr fun ev hev => hnone ev hev trivial
  rw [hnil] at heq
  simpa using heq

/-- The consumer of `Q` takes `look` steps; the producer then takes `store` steps, which push an
event, and ends; the queue is closed, and the consumer takes `find` steps. -/
def oneEvent (Q : IEventQueue (Thread 1 1)) (look store find : ℕ) :
    List (drainOnClose Q).Choice :=
  List.replicate look { thread := .consumer 0, input := {} } ++
    List.replicate store { thread := .producer 0, input := { push := true }, addr := 1 } ++
    { thread := .producer 0, input := {} } ::
      List.replicate 4 { thread := .closer, input := {} } ++
    List.replicate find { thread := .consumer 0, input := {} }

/-- A consumer that starts after the `close` finds the event. -/
theorem drained_on_close_one :
    let Q := spscRingQueue (Thread 1 1) 1
    let s := ((drainOnClose Q).runIf CloseHeeded (.initial _) (oneEvent Q 0 10 11)).get (by decide)
    (s.queue ()).pushed = [{}] ∧ (s.queue ()).pushed.Perm (s.queue ()).popped :=
  ⟨rfl, drained_on_close
    (show makeQueue (Thread 1 1) 2 .spscRing 1 {} = .ok (spscRingQueue (Thread 1 1) 1) from rfl)
    (fun _ => by decide) (Program.steps_of_runIf (Option.some_get _).symm) rfl
    fun k => by rw [Subsingleton.elim k 0]; rfl⟩

/-! ### A lost event -/

/-- A shutdown of the queue has a run that ends with an event nobody has popped. -/
def Loses (kind : QueueKind) : Prop :=
  ∃ Q, makeQueue (Thread 1 1) (2 ^ 58) kind 1 {} = .ok Q ∧
    ∃ s : (drainOnClose Q).State, (drainOnClose Q).Reachable s ∧
      s.loc .closer = CloserLoc.done ∧ (∀ k, s.loc (.consumer k) = ClientLoc.done) ∧
        ¬ (s.queue ()).pushed.Perm (s.queue ()).popped

theorem loses_of_run {kind : QueueKind} {Q : IEventQueue (Thread 1 1)}
    (hQ : makeQueue (Thread 1 1) (2 ^ 58) kind 1 {} = .ok Q) (cs : List (drainOnClose Q).Choice)
    {s : (drainOnClose Q).State}
    (hrun : (drainOnClose Q).runIf (fun _ _ => True) (.initial _) cs = some s)
    (hcloser : s.loc .closer = CloserLoc.done)
    (hconsumer : s.loc (.consumer 0) = ClientLoc.done)
    (hperm : ¬ (s.queue ()).pushed.Perm (s.queue ()).popped) : Loses kind := by
  refine ⟨Q, hQ, s, Program.steps_of_runIf hrun, hcloser, fun k => ?_, hperm⟩
  rw [Subsingleton.elim k 0]
  exact hconsumer

/-- **Events are lost** by the three queues that test for an event and for `closed_` in two steps:
the consumer finds the queue empty, the event is pushed and the queue closed, and the consumer sees
that it is closed. -/
theorem event_lost : Loses .splitLockLinked ∧ Loses .mpmcRing ∧ Loses .spscRing := by
  refine ⟨?_, ?_, ?_⟩
  · exact loses_of_run rfl (oneEvent _ 2 12 2) (Option.some_get (by decide)).symm rfl rfl
      (by decide)
  · exact loses_of_run rfl (oneEvent _ 2 12 2) (Option.some_get (by decide)).symm rfl rfl
      (by decide)
  · exact loses_of_run rfl (oneEvent _ 3 10 2) (Option.some_get (by decide)).symm rfl rfl
      (by decide)

end DrainOnClose

end Laboratory.QueueLatency
