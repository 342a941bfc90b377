import Laboratory.QueueLatency.Equiv.FlagTests
import Laboratory.QueueLatency.Equiv.GlobalLockClose
import Mathlib.Data.Finset.Card

/-!
# Who waits on a `GlobalLockQueue`

When producers push and consumers pop, a consumer is awake whenever there is an event, and the
events make up for the producers that wait (`Waiting`): every notification that a condition
variable loses is one that nobody needs.

Once the producers are told to stop, each event still wakes one of them and nothing else does, so
that it matters whether the events suffice for those that wait (`QState.Served`).  `Idle.push` draws
the conclusion for a state in which no operation can go on without a spurious wake-up.
-/

namespace Laboratory.QueueLatency

/-! ### The events suffice for the waiters -/

section

variable {ι : Type} {Q : IEventQueue ι} {s : QState Q} {i : ι}

/-- **The waiters are served**: there is an event for every `push` that waits for room, counting the
one that a `push` which has passed its tests will store. -/
def QState.Served (s : QState Q) : Prop :=
  (Q.waitsForRoom s.shared).card ≤ (Q.content s.shared).length ∨
    (Q.waitsForRoom s.shared).card ≤ (Q.content s.shared).length + 1 ∧ ∃ i, (s.storing i).isSome

instance [Fintype ι] : Decidable s.Served :=
  inferInstanceAs (Decidable (_ ∨ _ ∧ _))

variable [DecidableEq ι]

theorem served_call (hlaw : FlagLaw Q) (hi : s.frame i = none) (c : Call) :
    (s.call i c).Served ↔ s.Served := by
  rw [QState.Served, storing_call hlaw hi]
  exact Iff.rfl

theorem served_leave (hlaw : FlagLaw Q) {r : Return} (hi : s.returned i = some r) :
    (s.leave i r).Served ↔ s.Served := by
  rw [QState.Served, storing_leave hlaw hi]
  exact Iff.rfl

end

namespace GlobalLockQueue

variable {ι : Type} [DecidableEq ι] {capacity : ℕ} {options : QueueOptions} {env : Env ι} {i : ι}
  {x x' : Shared ι} {c : Call} {f f' : Frame (globalLockQueue ι capacity options)}
  {s s' : QState (globalLockQueue ι capacity options)} {producers consumers : Finset ι}

/-! ### What a step does to the waiters -/

/-- `notify_one` wakes a waiter, unless nobody waits. -/
theorem notifyOne_eq_some {wake : Option ι} {waiters waiters' : Finset ι}
    (h : notifyOne wake waiters = some waiters') :
    waiters = ∅ ∧ waiters' = ∅ ∨ ∃ k ∈ waiters, waiters' = waiters.erase k := by
  unfold notifyOne at h
  split_ifs at h with hempty
  · cases h
    exact .inl ⟨hempty, rfl⟩
  · obtain ⟨k, -, hk⟩ := Option.bind_eq_some_iff.mp h
    split_ifs at hk with hmem
    cases hk
    exact .inr ⟨k, hmem, rfl⟩

/-- There is always a waiter to wake. -/
theorem exists_notifyOne (waiters : Finset ι) : ∃ wake, (notifyOne wake waiters).isSome := by
  rcases waiters.eq_empty_or_nonempty with rfl | ⟨k, hk⟩
  · exact ⟨none, rfl⟩
  · refine ⟨some k, ?_⟩
    rw [notifyOne, if_neg (Finset.ne_empty_of_mem hk), Option.bind_some, if_pos hk]
    rfl

/-- **What a step of the call `c` by thread `i` does** to the events and to the waiters. -/
inductive Effect (i : ι) (c : Call) (x x' : Shared ι) : Prop
  | quiet (closed : x'.closed_ = x.closed_) (queue : x'.queue_ = x.queue_)
      (full : x'.not_full_cv_ ⊆ x.not_full_cv_) (empty : x'.not_empty_cv_ ⊆ x.not_empty_cv_)
  | sleepFull (call : ∃ ev, c = .push ev .block) (isOpen : x.closed_ = false)
      (closed : x'.closed_ = x.closed_) (queue : x'.queue_ = x.queue_)
      (le : x.capacity_ ≤ x.queue_.length) (full : x'.not_full_cv_ = insert i x.not_full_cv_)
      (empty : x'.not_empty_cv_ = x.not_empty_cv_)
  | sleepEmpty (call : c = .pop) (isOpen : x.closed_ = false) (closed : x'.closed_ = x.closed_)
      (queue : x'.queue_ = x.queue_) (nil : x.queue_ = [])
      (full : x'.not_full_cv_ = x.not_full_cv_)
      (empty : x'.not_empty_cv_ = insert i x.not_empty_cv_)
  | append {ev : Event} {wake : Option ι} (closed : x'.closed_ = x.closed_)
      (queue : x'.queue_ = x.queue_ ++ [ev]) (full : x'.not_full_cv_ = x.not_full_cv_)
      (empty : notifyOne wake x.not_empty_cv_ = some x'.not_empty_cv_)
  | take {out : Event} {wake : Option ι} (closed : x'.closed_ = x.closed_)
      (queue : x.queue_ = out :: x'.queue_)
      (full : notifyOne wake x.not_full_cv_ = some x'.not_full_cv_)
      (empty : x'.not_empty_cv_ = x.not_empty_cv_)
  | close (full : x'.not_full_cv_ = ∅) (empty : x'.not_empty_cv_ = ∅)

/-- A push in the wait on the condition variable. -/
def PushPC.parks : PushPC → Prop
  | .waitTest | .sleeping => True
  | _ => False

theorem push_effect {ev : Event} {policy : BackpressurePolicy} {pc pc' : PushPC}
    (hpc : pc.parks → policy = .block) (h : push env i ev policy x pc = some (x', pc')) :
    x'.capacity_ = x.capacity_ ∧ Effect i (.push ev policy) x x' := by
  have hsub := Finset.Subset.refl x.not_full_cv_
  have hsub' := Finset.Subset.refl x.not_empty_cv_
  cases pc with
  | waitTest =>
    simp only [push] at h
    split_ifs at h with hready <;> cases h
    · exact ⟨rfl, .quiet rfl rfl hsub hsub'⟩
    · simp only [Bool.or_eq_true, decide_eq_true_eq, not_or, not_lt] at hready
      cases hpc trivial
      exact ⟨rfl, .sleepFull ⟨_, rfl⟩ (Bool.eq_false_iff.mpr hready.1.1) rfl rfl hready.2 rfl
        rfl⟩
  | sleeping =>
    simp only [push] at h
    split_ifs at h <;> cases h
    · exact ⟨rfl, .quiet rfl rfl (Finset.erase_subset _ _) hsub'⟩
    · exact ⟨rfl, .quiet rfl rfl hsub hsub'⟩
  | append =>
    obtain ⟨waiters, hwake, heq⟩ := Option.map_eq_some_iff.mp h
    cases heq
    exact ⟨rfl, .append rfl rfl rfl hwake⟩
  | returned ok => cases h
  | _ =>
    simp only [push, failPush] at h
    split_ifs at h <;> cases h <;> exact ⟨rfl, .quiet rfl rfl hsub hsub'⟩

theorem finishPop_effect {r : Shared ι × PopPC} (h : finishPop env x = some r) :
    r.1.capacity_ = x.capacity_ ∧ Effect i .pop x r.1 := by
  unfold finishPop at h
  split at h
  · cases h
    exact ⟨rfl, .quiet rfl rfl (Finset.Subset.refl _) (Finset.Subset.refl _)⟩
  · rename_i out rest hq
    obtain ⟨waiters, hwake, rfl⟩ := Option.map_eq_some_iff.mp h
    exact ⟨rfl, .take rfl hq hwake rfl⟩

theorem pop_effect {pc pc' : PopPC} (h : pop env i x pc = some (x', pc')) :
    x'.capacity_ = x.capacity_ ∧ Effect i .pop x x' := by
  have hsub := Finset.Subset.refl x.not_full_cv_
  have hsub' := Finset.Subset.refl x.not_empty_cv_
  cases pc with
  | waitTest =>
    simp only [pop] at h
    split_ifs at h with hready
    · exact finishPop_effect h
    · cases h
      simp only [Bool.or_eq_true, Bool.not_eq_true', not_or, List.isEmpty_eq_false_iff,
        not_not] at hready
      exact ⟨rfl, .sleepEmpty rfl (Bool.eq_false_iff.mpr hready.1.1) rfl rfl hready.2 rfl rfl⟩
  | sleeping =>
    simp only [pop] at h
    split_ifs at h <;> cases h
    · exact ⟨rfl, .quiet rfl rfl hsub (Finset.erase_subset _ _)⟩
    · exact ⟨rfl, .quiet rfl rfl hsub hsub'⟩
  | spinTest spins =>
    simp only [pop] at h
    split_ifs at h
    · cases h
      exact ⟨rfl, .quiet rfl rfl hsub hsub'⟩
    · cases h
      exact ⟨rfl, .quiet rfl rfl hsub hsub'⟩
    · exact finishPop_effect h
  | returned out => cases h
  | _ =>
    simp only [pop] at h
    split_ifs at h <;> cases h <;> exact ⟨rfl, .quiet rfl rfl hsub hsub'⟩

/-- Only a push that may block waits. -/
def Parks (f : Frame (globalLockQueue ι capacity options)) : Prop :=
  ∀ ev policy pc, f = .push ev policy pc → PushPC.parks pc → policy = .block

theorem stepFrame_effect (hf : Parks f) (h : QState.stepFrame env i x f = some (x', f')) :
    Shared.capacity_ x' = Shared.capacity_ x ∧ Effect i f.toCall x x' := by
  cases stepFrame_cases h with
  | push h => exact push_effect (hf _ _ _ rfl) h
  | pop h => exact pop_effect h
  | close h =>
    obtain ⟨-, heq⟩ := Option.ite_none_right_eq_some.mp h
    cases heq
    exact ⟨rfl, .close rfl rfl⟩

/-! ### Nobody waits in vain -/

/-- Producers push, as far as pushes may block, and consumers pop. -/
def Roles (producers consumers : Finset ι) (i : ι) : Call → Prop
  | .push _ policy => policy = .block → i ∈ producers
  | .pop => i ∈ consumers
  | .close => True

/-- **The waiters.** A consumer is awake if there is an event; and if producers wait for room, then
the events are at least as many as the places that the other producers leave of the capacity. -/
structure Waiting (producers consumers : Finset ι) (x : Shared ι) : Prop where
  full : x.not_full_cv_ ⊆ producers
  empty : x.not_empty_cv_ ⊆ consumers
  closed : x.closed_ = true → x.not_full_cv_ = ∅ ∧ x.not_empty_cv_ = ∅
  awake : x.queue_ ≠ [] → ∃ k ∈ consumers, k ∉ x.not_empty_cv_
  room : x.not_full_cv_ ≠ ∅ →
    x.capacity_ + x.not_full_cv_.card ≤ x.queue_.length + producers.card

theorem Waiting.step (hs : Waiting producers consumers x) (hconsumers : consumers.Nonempty)
    (hi : Roles producers consumers i c) (hcap : x'.capacity_ = x.capacity_)
    (h : Effect i c x x') : Waiting producers consumers x' := by
  cases h with
  | quiet hclosed hqueue hfull hempty =>
    refine ⟨hfull.trans hs.full, hempty.trans hs.empty, fun hc => ?_, fun hne => ?_,
      fun hne => ?_⟩
    · obtain ⟨h₁, h₂⟩ := hs.closed (hclosed ▸ hc)
      exact ⟨Finset.subset_empty.mp (h₁ ▸ hfull), Finset.subset_empty.mp (h₂ ▸ hempty)⟩
    · obtain ⟨k, hk, hawake⟩ := hs.awake (hqueue ▸ hne)
      exact ⟨k, hk, fun hmem => hawake (hempty hmem)⟩
    · have hroom := hs.room fun h => hne (Finset.subset_empty.mp (h ▸ hfull))
      have := Finset.card_le_card hfull
      rw [hcap, hqueue]
      omega
  | sleepFull hcall hopen hclosed hqueue hle hfull hempty =>
    -- The queue is full, and there are no more waiters than producers.
    obtain ⟨ev, rfl⟩ := hcall
    have hsub : x'.not_full_cv_ ⊆ producers := by
      rw [hfull]
      exact Finset.insert_subset (hi rfl) hs.full
    refine ⟨hsub, hempty ▸ hs.empty, fun hc => ?_, ?_, fun _ => ?_⟩
    · rw [hclosed, hopen] at hc
      cases hc
    · rw [hqueue, hempty]
      exact hs.awake
    · have := Finset.card_le_card hsub
      rw [hcap, hqueue]
      omega
  | sleepEmpty hcall hopen hclosed hqueue hnil hfull hempty =>
    -- The queue is empty, so that it may be that nobody is awake.
    subst hcall
    refine ⟨hfull ▸ hs.full, ?_, fun hc => ?_, fun hne => absurd (hqueue.trans hnil) hne, ?_⟩
    · rw [hempty]
      exact Finset.insert_subset hi hs.empty
    · rw [hclosed, hopen] at hc
      cases hc
    · rw [hcap, hqueue, hfull]
      exact hs.room
  | append hclosed hqueue hfull hempty =>
    have hsub := notifyOne_subset hempty
    refine ⟨hfull ▸ hs.full, hsub.trans hs.empty, fun hc => ?_, fun _ => ?_, fun hne => ?_⟩
    · obtain ⟨h₁, h₂⟩ := hs.closed (hclosed ▸ hc)
      exact ⟨hfull.trans h₁, Finset.subset_empty.mp (h₂ ▸ hsub)⟩
    · -- Whoever is notified is awake; if nobody waits, everybody is.
      rcases notifyOne_eq_some hempty with ⟨-, hnone⟩ | ⟨k, hk, herase⟩
      · obtain ⟨k, hk⟩ := hconsumers
        exact ⟨k, hk, hnone ▸ Finset.notMem_empty k⟩
      · exact ⟨k, hs.empty hk, herase ▸ Finset.notMem_erase k _⟩
    · have hroom := hs.room (hfull ▸ hne)
      rw [hcap, hqueue, hfull, List.length_append, List.length_singleton]
      omega
  | take hclosed hqueue hfull hempty =>
    have hsub := notifyOne_subset hfull
    have hlength := congrArg List.length hqueue
    rw [List.length_cons] at hlength
    refine ⟨hsub.trans hs.full, hempty ▸ hs.empty, fun hc => ?_, fun _ => ?_, fun hne => ?_⟩
    · obtain ⟨h₁, h₂⟩ := hs.closed (hclosed ▸ hc)
      exact ⟨Finset.subset_empty.mp (h₁ ▸ hsub), hempty.trans h₂⟩
    · rw [hempty]
      exact hs.awake (by simp [hqueue])
    · -- One event and one waiter less.
      rcases notifyOne_eq_some hfull with ⟨-, hnone⟩ | ⟨k, hk, herase⟩
      · exact absurd hnone hne
      · have hroom := hs.room (Finset.ne_empty_of_mem hk)
        have hcard := Finset.card_erase_add_one hk
        rw [hcap, herase]
        omega
  | close hfull hempty =>
    -- Everybody is notified.
    obtain ⟨k, hk⟩ := hconsumers
    refine ⟨?_, ?_, fun _ => ⟨hfull, hempty⟩, fun _ => ⟨k, hk, ?_⟩, fun hne => absurd hfull hne⟩
    · exact hfull ▸ Finset.empty_subset _
    · exact hempty ▸ Finset.empty_subset _
    · exact hempty ▸ Finset.notMem_empty k

/-! ### The mutex is held by a thread that will give it up -/

theorem push_mutex {ev : Event} {policy : BackpressurePolicy} {pc pc' : PushPC}
    (h : push env i ev policy x pc = some (x', pc')) :
    x'.mu_ = none ∨ pc'.owns ∨ x'.mu_ = x.mu_ ∧ ¬ pc.owns := by
  cases pc with
  | append =>
    obtain ⟨waiters, -, heq⟩ := Option.map_eq_some_iff.mp h
    cases heq
    exact .inl rfl
  | returned ok => cases h
  | _ =>
    simp only [push, failPush] at h
    split_ifs at h <;> cases h <;>
      first
      | exact .inl rfl
      | exact .inr (.inl trivial)
      | exact .inr (.inr ⟨rfl, id⟩)

theorem pop_mutex {pc pc' : PopPC} (h : pop env i x pc = some (x', pc')) :
    x'.mu_ = none ∨ pc'.owns ∨ x'.mu_ = x.mu_ ∧ ¬ pc.owns := by
  cases pc with
  | waitTest =>
    simp only [pop] at h
    split_ifs at h
    · exact .inl (finishPop_mutex h).1
    · cases h
      exact .inl rfl
  | spinTest spins =>
    simp only [pop] at h
    split_ifs at h
    · cases h
      exact .inl rfl
    · cases h
      exact .inl rfl
    · exact .inl (finishPop_mutex h).1
  | returned out => cases h
  | _ =>
    simp only [pop] at h
    split_ifs at h <;> cases h <;>
      first
      | exact .inr (.inl trivial)
      | exact .inr (.inr ⟨rfl, id⟩)

/-- After a step the mutex is free, or the thread holds it, or somebody else does as before. -/
theorem stepFrame_mutex (h : QState.stepFrame env i x f = some (x', f')) :
    Shared.mu_ x' = none ∨ owns f' ∨ Shared.mu_ x' = Shared.mu_ x ∧ ¬ owns f := by
  cases stepFrame_cases h with
  | push h => exact push_mutex h
  | pop h => exact pop_mutex h
  | close h =>
    obtain ⟨-, heq⟩ := Option.ite_none_right_eq_some.mp h
    cases heq
    exact .inr (.inr ⟨rfl, id⟩)

theorem push_parks {ev : Event} {policy : BackpressurePolicy} {pc pc' : PushPC}
    (h : push env i ev policy x pc = some (x', pc')) (hpc : pc.parks → policy = .block)
    (hparks : pc'.parks) : policy = .block := by
  cases pc with
  | checkClosed =>
    simp only [push, failPush] at h
    split_ifs at h with hclosed hcap hblock hwait hfull <;> cases h
    · exact hparks.elim
    · exact hparks.elim
    · exact hblock
    · exact hblock
    · exact hparks.elim
    · exact hparks.elim
  | waitTest => exact hpc trivial
  | sleeping => exact hpc trivial
  | append =>
    obtain ⟨waiters, -, heq⟩ := Option.map_eq_some_iff.mp h
    cases heq
    exact hparks.elim
  | returned ok => cases h
  | _ =>
    simp only [push, failPush] at h
    split_ifs at h <;> cases h <;> exact hparks.elim

/-! ### The invariant -/

/-- **What holds of the threads and the fields** when producers push and consumers pop. -/
structure Monitored (producers consumers : Finset ι)
    (s : QState (globalLockQueue ι capacity options)) : Prop where
  locked : Locked s.shared s.frame
  held : ∀ i, Shared.mu_ s.shared = some i → ∃ f, s.frame i = some f ∧ owns f
  roles : ∀ i f, s.frame i = some f → Roles producers consumers i f.toCall
  parks : ∀ i f, s.frame i = some f → Parks f
  capacity : Shared.capacity_ s.shared = capacity
  waiting : Waiting producers consumers s.shared

theorem monitored_start (producers : Finset ι) (hconsumers : consumers.Nonempty) :
    Monitored producers consumers (QState.start (globalLockQueue ι capacity options)) where
  locked := by rintro i f ⟨⟩
  held := by rintro i ⟨⟩
  roles := by rintro i f ⟨⟩
  parks := by rintro i f ⟨⟩
  capacity := rfl
  waiting := by
    obtain ⟨k, hk⟩ := hconsumers
    exact ⟨Finset.empty_subset _, Finset.empty_subset _, fun _ => ⟨rfl, rfl⟩,
      fun hne => absurd rfl hne, fun hne => absurd rfl hne⟩

/-- A thread that does not hold the mutex enters or leaves an operation. -/
theorem Monitored.replace (hs : Monitored producers consumers s)
    (hi : ∀ f, s.frame i = some f → ¬ owns f)
    {g : Option (Frame (globalLockQueue ι capacity options))} (hg : ∀ f, g = some f →
      ¬ owns f ∧ Roles producers consumers i f.toCall ∧
        ∀ ev policy pc, f = .push ev policy pc → ¬ PushPC.parks pc)
    (hshared : s'.shared = s.shared) (hframe : s'.frame = Function.update s.frame i g) :
    Monitored producers consumers s' := by
  obtain ⟨locked, held, roles, parks, capacity, waiting⟩ := hs
  refine ⟨?_, fun j hj => ?_, ?_, ?_, ?_, ?_⟩
  · rw [hshared, hframe]
    exact forall_frame_update locked fun f hf howns => absurd howns (hg f hf).1
  · rw [hshared] at hj
    obtain ⟨f, hf, howns⟩ := held j hj
    have hji : j ≠ i := by
      rintro rfl
      exact hi f hf howns
    exact ⟨f, by rw [hframe, Function.update_of_ne hji, hf], howns⟩
  · rw [hframe]
    exact forall_frame_update roles fun f hf => (hg f hf).2.1
  · rw [hframe]
    exact forall_frame_update parks fun f hf ev policy pc heq hparks =>
      absurd hparks ((hg f hf).2.2 ev policy pc heq)
  · rw [hshared, capacity]
  · rw [hshared]
    exact waiting

theorem Monitored.step (hs : Monitored producers consumers s) (hconsumers : consumers.Nonempty)
    (h : s.step env i = some s') : Monitored producers consumers s' := by
  have hlocked := hs.locked.step h
  obtain ⟨f, ⟨y, f'⟩, hf, hr, rfl⟩ := step_eq_some h
  obtain ⟨hcap, heffect⟩ := stepFrame_effect (hs.parks i f hf) hr
  refine ⟨hlocked, fun j hj => ?_, ?_, ?_, hcap.trans hs.capacity,
    hs.waiting.step hconsumers (hs.roles i f hf) hcap heffect⟩
  · rcases stepFrame_mutex hr with hfree | howns | ⟨hsame, hnot⟩
    · rw [hj] at hfree
      cases hfree
    · have hmine := hlocked i f' (Function.update_self ..) howns
      rw [hj, Option.some.injEq] at hmine
      subst hmine
      exact ⟨f', Function.update_self .., howns⟩
    · -- The step is none of the thread that holds the mutex.
      obtain ⟨g, hg, howns⟩ := hs.held j (hsame ▸ hj)
      have hji : j ≠ i := by
        rintro rfl
        rw [hf, Option.some.injEq] at hg
        exact hnot (hg ▸ howns)
      exact ⟨g, (Function.update_of_ne hji _ _).trans hg, howns⟩
  · refine forall_frame_update hs.roles ?_
    rintro _ ⟨⟩
    rw [toCall_stepFrame hr]
    exact hs.roles i f hf
  · -- Only a `push` may park, and it keeps its policy.
    refine forall_frame_update hs.parks ?_
    rintro _ ⟨⟩ ev policy pc rfl
    cases f with
    | push ev' policy' pc' =>
      obtain ⟨r, hpush, heq⟩ := Option.map_eq_some_iff.mp hr
      cases heq
      exact push_parks hpush (hs.parks i _ hf _ _ _ rfl)
    | pop pc' =>
      obtain ⟨r, -, heq⟩ := Option.map_eq_some_iff.mp hr
      cases heq
    | close done =>
      cases done
      · obtain ⟨r, -, heq⟩ := Option.map_eq_some_iff.mp hr
        cases heq
      · cases hr

theorem not_owns_of_result {r : Return} (h : f.result = some r) : ¬ owns f := by
  cases f with
  | push ev policy pc =>
    obtain ⟨ok, hok, -⟩ := Option.map_eq_some_iff.mp h
    cases pc <;> cases hok
    exact id
  | pop pc =>
    obtain ⟨out, hout, -⟩ := Option.map_eq_some_iff.mp h
    cases pc <;> cases hout
    exact id
  | close done => exact id

/-- **The invariant holds in every reachable state**, by induction on the run. -/
theorem monitored_of_reachable (hconsumers : consumers.Nonempty)
    (h : QReachable (globalLockQueue ι capacity options) (Roles producers consumers) s) :
    Monitored producers consumers s := by
  induction h with
  | refl => exact monitored_start producers hconsumers
  | tail _ hstep ih =>
    cases hstep with
    | @call i c free may =>
      refine ih.replace (i := i) (g := some (Frame.enter _ c)) (fun f hf => ?_) ?_ rfl rfl
      · rw [free] at hf
        cases hf
      · rintro _ ⟨⟩
        refine ⟨?_, by rwa [toCall_enter], ?_⟩
        · cases c <;> exact id
        · rintro ev policy pc heq
          cases c <;> cases heq
          exact id
    | step h => exact ih.step hconsumers h
    | @leave i r h =>
      obtain ⟨f, hf, hres⟩ := returned_eq_some h
      refine ih.replace (i := i) (g := none) (fun g hg => ?_) (by rintro _ ⟨⟩) rfl rfl
      rw [hf, Option.some.injEq] at hg
      exact hg ▸ not_owns_of_result hres

/-! ### The waiters stay served -/

/-- With no more producers than places, the events suffice for those that wait. -/
theorem Monitored.served (hs : Monitored producers consumers s) (hle : producers.card ≤ capacity) :
    s.Served := by
  left
  change (Shared.not_full_cv_ s.shared).card ≤ (Shared.queue_ s.shared).length
  by_cases hne : Shared.not_full_cv_ s.shared = ∅
  · rw [hne]
    exact Nat.zero_le _
  · have hroom := hs.waiting.room hne
    rw [hs.capacity] at hroom
    omega

/-- A push that is told to stop does not wait. -/
theorem push_not_full_subset {ev : Event} {policy : BackpressurePolicy} {pc pc' : PushPC}
    (hstop : env.stop = true) (h : push env i ev policy x pc = some (x', pc')) :
    x'.not_full_cv_ ⊆ x.not_full_cv_ := by
  cases pc with
  | waitTest =>
    simp only [push, hstop, Bool.or_true, Bool.true_or, if_true] at h
    cases h
    exact Finset.Subset.refl _
  | sleeping =>
    simp only [push] at h
    split_ifs at h <;> cases h
    · exact Finset.erase_subset _ _
    · exact Finset.Subset.refl _
  | append =>
    obtain ⟨waiters, -, heq⟩ := Option.map_eq_some_iff.mp h
    cases heq
    exact Finset.Subset.refl _
  | returned ok => cases h
  | _ =>
    simp only [push, failPush] at h
    split_ifs at h <;> cases h <;> exact Finset.Subset.refl _

/-- When producers are told to stop, there are no more waiters after a step unless there are as many
events less. -/
theorem waiters_of_stepFrame (hf : Parks f)
    (hstop : ∀ ev policy pc, f = .push ev policy pc → env.stop = true)
    (h : QState.stepFrame env i x f = some (x', f')) :
    (Shared.not_full_cv_ x').card ≤ x.not_full_cv_.card ∧
        x.queue_.length ≤ (Shared.queue_ x').length ∨
      Shared.not_full_cv_ x' = ∅ ∨
        (Shared.not_full_cv_ x').card + 1 = x.not_full_cv_.card ∧
          x.queue_.length = (Shared.queue_ x').length + 1 := by
  cases (stepFrame_effect hf h).2 with
  | quiet _ hqueue hfull _ => exact .inl ⟨Finset.card_le_card hfull, hqueue ▸ le_rfl⟩
  | sleepFull hcall _ _ hqueue _ _ _ =>
    left
    obtain ⟨ev, hcall⟩ := hcall
    cases stepFrame_cases h with
    | push hpush =>
      exact ⟨Finset.card_le_card (push_not_full_subset (hstop _ _ _ rfl) hpush), hqueue ▸ le_rfl⟩
    | pop hpop => cases hcall
    | close hclose => cases hcall
  | sleepEmpty _ _ _ hqueue _ hfull _ => exact .inl ⟨hfull ▸ le_rfl, hqueue ▸ le_rfl⟩
  | append _ hqueue hfull _ =>
    refine .inl ⟨hfull ▸ le_rfl, ?_⟩
    rw [hqueue, List.length_append]
    exact Nat.le_add_right ..
  | take _ hqueue hfull _ =>
    right
    rcases notifyOne_eq_some hfull with ⟨-, hnone⟩ | ⟨k, hk, herase⟩
    · exact .inl hnone
    · refine .inr ⟨herase ▸ Finset.card_erase_add_one hk, ?_⟩
      rw [hqueue, List.length_cons]
  | close hfull _ => exact .inr (.inl hfull)

/-- **The waiters stay served when producers are told to stop**: an event less is a waiter less. -/
theorem served_step (hserved : s.Served) (hs : Monitored producers consumers s)
    (hstop : ∀ ev policy pc, s.frame i = some (.push ev policy pc) → env.stop = true)
    (h : s.step env i = some s') : s'.Served := by
  obtain ⟨f, ⟨y, f'⟩, hf, hr, rfl⟩ := step_eq_some h
  cases hi : s.storing i with
  | some ev =>
    -- The step stores the event that was counted.
    obtain ⟨policy, pc, hf', hwill⟩ := storing_eq_some_iff.mp hi
    rw [hf, Option.some.injEq] at hf'
    subst hf'
    cases pc <;> cases hwill
    obtain ⟨r, hpush, heq⟩ := Option.map_eq_some_iff.mp hr
    obtain ⟨waiters, -, rfl⟩ := Option.map_eq_some_iff.mp hpush
    cases heq
    left
    change (Shared.not_full_cv_ s.shared).card ≤ (Shared.queue_ s.shared ++ [ev]).length
    rw [List.length_append, List.length_singleton]
    exact hserved.elim Nat.le_succ_of_le And.left
  | none =>
    have hstoring : (∃ j, (s.storing j).isSome = true) → ∃ j, (QState.storing
        { s with shared := y, frame := Function.update s.frame i (some f') } j).isSome = true := by
      rintro ⟨j, hj⟩
      have hji : j ≠ i := by
        rintro rfl
        rw [hi] at hj
        cases hj
      refine ⟨j, ?_⟩
      simp only [QState.storing, Function.update_of_ne hji]
      exact hj
    change y.not_full_cv_.card ≤ y.queue_.length ∨ y.not_full_cv_.card ≤ y.queue_.length + 1 ∧ _
    have hserved : (Shared.not_full_cv_ s.shared).card ≤ (Shared.queue_ s.shared).length ∨
      (Shared.not_full_cv_ s.shared).card ≤ (Shared.queue_ s.shared).length + 1 ∧ _ := hserved
    have hstop ev policy pc (heq : f = .push ev policy pc) := hstop ev policy pc (heq ▸ hf)
    rcases waiters_of_stepFrame (hs.parks i f hf) hstop hr with
      ⟨hfull, hqueue⟩ | hnone | ⟨hfull, hqueue⟩
    · exact hserved.imp (by omega) (And.imp (by omega) hstoring)
    · left
      rw [hnone]
      exact Nat.zero_le _
    · exact hserved.imp (by omega) (And.imp (by omega) hstoring)

/-! ### When nobody can go on -/

/-- Whoever holds the mutex can go on, if somebody is there to be notified. -/
theorem exists_push (stop : Bool) (i : ι) (ev : Event) (policy : BackpressurePolicy)
    (x : Shared ι) {pc : PushPC} (h : pc.owns) :
    ∃ wake, (push { stop, wake } i ev policy x pc).isSome := by
  cases pc with
  -- If somebody waits, one of the waiters is notified.
  | append =>
    obtain ⟨wake, hwake⟩ := exists_notifyOne x.not_empty_cv_
    exact ⟨wake, by rw [push, Option.isSome_map]; exact hwake⟩
  | lock => exact h.elim
  | sleeping => exact h.elim
  | relock spins => exact h.elim
  | returned ok => exact h.elim
  | _ =>
    refine ⟨none, ?_⟩
    simp only [push]
    split_ifs <;> rfl

theorem exists_finishPop (stop : Bool) (x : Shared ι) :
    ∃ wake, (finishPop { stop, wake } x).isSome := by
  obtain ⟨wake, hwake⟩ := exists_notifyOne x.not_full_cv_
  refine ⟨wake, ?_⟩
  unfold finishPop
  split
  · rfl
  · rw [Option.isSome_map]
    exact hwake

theorem exists_pop (stop : Bool) (i : ι) (x : Shared ι) {pc : PopPC} (h : pc.owns) :
    ∃ wake, (pop { stop, wake } i x pc).isSome := by
  obtain ⟨wake, hwake⟩ := exists_finishPop stop x
  cases pc with
  | waitTest =>
    refine ⟨wake, ?_⟩
    simp only [pop]
    split_ifs
    · exact hwake
    · rfl
  | spinTest spins =>
    refine ⟨wake, ?_⟩
    simp only [pop]
    split_ifs
    · rfl
    · rfl
    · exact hwake
  | _ => exact h.elim

theorem exists_stepFrame (stop : Bool) (i : ι) (x : Shared ι) (h : owns f) :
    ∃ wake, (QState.stepFrame { stop, wake } i x f).isSome := by
  cases f with
  | push ev policy pc =>
    obtain ⟨wake, hwake⟩ := exists_push stop i ev policy x h
    exact ⟨wake, Option.isSome_map.trans hwake⟩
  | pop pc =>
    obtain ⟨wake, hwake⟩ := exists_pop stop i x h
    exact ⟨wake, Option.isSome_map.trans hwake⟩
  | close done => exact h.elim

/-- An operation that waits on its condition variable, and has not been notified. -/
def Asleep (i : ι) (x : Shared ι) (f : Frame (globalLockQueue ι capacity options)) : Prop :=
  (∃ ev policy, f = .push ev policy PushPC.sleeping ∧ i ∈ x.not_full_cv_) ∨
    f = .pop PopPC.sleeping ∧ i ∈ x.not_empty_cv_

theorem Asleep.ne_close (h : Asleep i x f) : f.toCall ≠ .close := by
  rcases h with ⟨ev, policy, rfl, -⟩ | ⟨rfl, -⟩ <;> nofun

/-- What cannot go on although the mutex is free is asleep. -/
theorem asleep_of_stepFrame (hfree : x.mu_ = none) (howns : ¬ owns f) (hres : f.result = none)
    (h : QState.stepFrame env i x f = none) : Asleep i x f := by
  cases f with
  | push ev policy pc =>
    have h : push env i ev policy x pc = none := Option.map_eq_none_iff.mp h
    cases pc with
    | sleeping =>
      simp only [push] at h
      split_ifs at h with hmem
      exact .inl ⟨ev, policy, rfl, hmem⟩
    -- The mutex is free.
    | lock =>
      simp only [push] at h
      split_ifs at h
    | relock spins =>
      simp only [push] at h
      split_ifs at h
    | returned ok => cases hres
    | _ => exact absurd trivial howns
  | pop pc =>
    have h : pop env i x pc = none := Option.map_eq_none_iff.mp h
    cases pc with
    | sleeping =>
      simp only [pop] at h
      split_ifs at h with hmem
      exact .inr ⟨rfl, hmem⟩
    | lock =>
      simp only [pop] at h
      split_ifs at h
    | relock spins =>
      simp only [pop] at h
      split_ifs at h
    | returned out => cases hres
    | _ => exact absurd trivial howns
  | close done =>
    cases done
    · have h : close x = none := Option.map_eq_none_iff.mp h
      rw [close, if_pos hfree] at h
      cases h
    · cases hres

/-- No operation in progress can go on without a spurious wake-up. -/
def Idle (stop : ι → Bool) (s : QState (globalLockQueue ι capacity options)) : Prop :=
  ∀ i f, s.frame i = some f → f.result = none →
    ∀ wake, QState.stepFrame { stop := stop i, wake } i s.shared f = none

variable {stop : ι → Bool}

theorem Idle.mutex_free (h : Idle stop s) (hs : Monitored producers consumers s) :
    Shared.mu_ s.shared = none := by
  by_contra hne
  obtain ⟨i, hi⟩ := Option.ne_none_iff_exists'.mp hne
  obtain ⟨f, hf, howns⟩ := hs.held i hi
  obtain ⟨wake, hwake⟩ := exists_stepFrame (stop i) i s.shared howns
  have hres : f.result = none := by
    by_contra hres
    obtain ⟨r, hr⟩ := Option.ne_none_iff_exists'.mp hres
    exact not_owns_of_result hr howns
  rw [h i f hf hres wake] at hwake
  cases hwake

/-- **In an idle queue everybody sleeps.** -/
theorem Idle.asleep (h : Idle stop s) (hs : Monitored producers consumers s)
    (hf : s.frame i = some f) (hres : f.result = none) : Asleep i s.shared f := by
  have hfree := h.mutex_free hs
  refine asleep_of_stepFrame hfree (fun howns => ?_) hres (h i f hf hres none)
  rw [hs.locked i f hf howns] at hfree
  cases hfree

/-- Nobody sleeps on a closed queue. -/
theorem Idle.isOpen (h : Idle stop s) (hs : Monitored producers consumers s)
    (hf : s.frame i = some f) (hres : f.result = none) : Shared.closed_ s.shared = false := by
  by_contra hc
  obtain ⟨hfull, hempty⟩ := hs.waiting.closed (Bool.eq_true_of_not_eq_false hc)
  rcases h.asleep hs hf hres with ⟨ev, policy, -, hmem⟩ | ⟨-, hmem⟩
  · rw [hfull] at hmem
    exact absurd hmem (Finset.notMem_empty i)
  · rw [hempty] at hmem
    exact absurd hmem (Finset.notMem_empty i)

/-- A push that has passed its tests can go on. -/
theorem Idle.storing (h : Idle stop s) (hs : Monitored producers consumers s) (i : ι) :
    s.storing i = none := by
  by_contra hne
  obtain ⟨ev, hev⟩ := Option.ne_none_iff_exists'.mp hne
  obtain ⟨policy, pc, hf, hwill⟩ := storing_eq_some_iff.mp hev
  have hres :
      Frame.result (Q := globalLockQueue ι capacity options) (.push ev policy pc) = none := by
    cases pc <;> cases hwill
    rfl
  rcases h.asleep hs hf hres with ⟨_, _, heq, -⟩ | ⟨heq, -⟩
  · cases heq
    cases hwill
  · cases heq

/-- **A producer that sleeps in an idle queue**: if the events suffice for those that wait, then
some consumer is in no `pop`, or through with it. -/
theorem Idle.push (h : Idle stop s) (hs : Monitored producers consumers s)
    (hserved : s.Served) {ev : Event} {policy : BackpressurePolicy} {pc : PushPC}
    (hf : s.frame i = some (.push ev policy pc))
    (hres : Frame.result (Q := globalLockQueue ι capacity options) (.push ev policy pc) = none) :
    ∃ k ∈ consumers, ∀ f, s.frame k = some f → f.toCall = .pop → f.result ≠ none := by
  rcases h.asleep hs hf hres with ⟨_, _, heq, hmem⟩ | ⟨heq, -⟩
  · cases heq
    have hcard := Finset.card_pos.mpr ⟨i, hmem⟩
    have hne : Shared.queue_ s.shared ≠ [] := by
      rcases hserved with hle | ⟨-, j, hj⟩
      · exact List.ne_nil_of_length_pos (hcard.trans_le hle)
      · rw [h.storing hs j] at hj
        cases hj
    obtain ⟨k, hk, hawake⟩ := hs.waiting.awake hne
    refine ⟨k, hk, fun f hf hpop hres => ?_⟩
    rcases h.asleep hs hf hres with ⟨_, _, rfl, -⟩ | ⟨-, hmem⟩
    · cases hpop
    · exact hawake hmem
  · cases heq

end GlobalLockQueue

end Laboratory.QueueLatency
