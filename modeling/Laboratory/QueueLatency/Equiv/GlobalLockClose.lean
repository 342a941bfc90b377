import Laboratory.QueueLatency.Equiv.GlobalLockQueue

/-!
# Closing a `GlobalLockQueue`

`close_final`: after `close` nothing is appended to the queue, and every push that is in progress
returns `false`, as long as no spinning push finds a closed queue with room.  The spin loop of
`push` does not test `closed_` when it finds room, unlike the wait on the condition variable;
`append_after_close` is a run in which such a push appends its event to the closed queue.  Where no
push spins there is none of them (`spinHeeded_of_spinless`).
-/

namespace Laboratory.QueueLatency

namespace GlobalLockQueue

variable {ι : Type} [DecidableEq ι] {capacity : ℕ} {options : QueueOptions} {env : Env ι} {i j : ι}
  {x x' : Shared ι} {f f' : Frame (globalLockQueue ι capacity options)}
  {s s' : QState (globalLockQueue ι capacity options)}

/-! ### Who holds the mutex -/

def PushPC.owns : PushPC → Prop
  | .lock | .sleeping | .relock _ | .returned _ => False
  | _ => True

def PopPC.owns : PopPC → Prop
  | .waitTest | .spinTest _ => True
  | _ => False

/-- The thread holds the mutex. -/
def owns : Frame (globalLockQueue ι capacity options) → Prop
  | .push _ _ pc => PushPC.owns pc
  | .pop pc => PopPC.owns pc
  | .close _ => False

/-- A step of thread `i` takes the mutex only when it is free, and gives it up only when it holds
it. -/
structure KeepsMutex (i : ι) (x x' : Shared ι) (before after : Prop) : Prop where
  owner : after → x'.mu_ = some i
  others : x'.mu_ = x.mu_ ∨ x.mu_ = none ∨ before

theorem push_keepsMutex {ev : Event} {policy : BackpressurePolicy} {pc pc' : PushPC}
    (h : push env i ev policy x pc = some (x', pc')) (ho : pc.owns → x.mu_ = some i) :
    KeepsMutex i x x' pc.owns pc'.owns := by
  cases pc with
  | append =>
    obtain ⟨waiters, -, heq⟩ := Option.map_eq_some_iff.mp h
    cases heq
    exact ⟨False.elim, .inr (.inr trivial)⟩
  | returned ok => cases h
  | _ =>
    simp only [push, failPush] at h
    split_ifs at h <;> cases h <;>
      first
      | exact ⟨False.elim, .inr (.inr trivial)⟩
      | exact ⟨False.elim, .inl rfl⟩
      | exact ⟨fun _ => ho trivial, .inl rfl⟩
      | exact ⟨fun _ => rfl, .inr (.inl ‹_›)⟩

/-- A `pop` that finishes gives the mutex up. -/
theorem finishPop_mutex {r : Shared ι × PopPC} (h : finishPop env x = some r) :
    r.1.mu_ = none ∧ ¬ r.2.owns := by
  unfold finishPop at h
  split at h
  · cases h
    exact ⟨rfl, id⟩
  · obtain ⟨waiters, -, rfl⟩ := Option.map_eq_some_iff.mp h
    exact ⟨rfl, id⟩

theorem pop_keepsMutex {pc pc' : PopPC} (h : pop env i x pc = some (x', pc'))
    (ho : pc.owns → x.mu_ = some i) : KeepsMutex i x x' pc.owns pc'.owns := by
  cases pc with
  | waitTest =>
    simp only [pop] at h
    split_ifs at h
    · exact ⟨fun howns => absurd howns (finishPop_mutex h).2, .inr (.inr trivial)⟩
    · cases h
      exact ⟨False.elim, .inr (.inr trivial)⟩
  | spinTest spins =>
    simp only [pop] at h
    split_ifs at h
    · cases h
      exact ⟨False.elim, .inr (.inr trivial)⟩
    · cases h
      exact ⟨False.elim, .inr (.inr trivial)⟩
    · exact ⟨fun howns => absurd howns (finishPop_mutex h).2, .inr (.inr trivial)⟩
  | returned out => cases h
  | _ =>
    simp only [pop] at h
    split_ifs at h <;> cases h <;>
      first
      | exact ⟨False.elim, .inl rfl⟩
      | exact ⟨fun _ => rfl, .inr (.inl ‹_›)⟩

theorem stepFrame_keepsMutex (h : QState.stepFrame env i x f = some (x', f'))
    (ho : owns f → x.mu_ = some i) : KeepsMutex i x x' (owns f) (owns f') := by
  cases stepFrame_cases h with
  | push h => exact push_keepsMutex h ho
  | pop h => exact pop_keepsMutex h ho
  | close h =>
    obtain ⟨hmu, -⟩ := Option.ite_none_right_eq_some.mp h
    exact ⟨False.elim, .inr (.inl hmu)⟩

/-- A thread that stands inside a locked section holds the mutex, so that there is only one. -/
def Locked (x : Shared ι) (frame : ι → Option (Frame (globalLockQueue ι capacity options))) :
    Prop :=
  ∀ i f, frame i = some f → owns f → x.mu_ = some i

theorem Locked.step (hs : Locked s.shared s.frame) (h : s.step env i = some s') :
    Locked s'.shared s'.frame := by
  obtain ⟨f, ⟨y, f'⟩, hf, hr, rfl⟩ := step_eq_some h
  have hkeeps := stepFrame_keepsMutex hr (hs i f hf)
  apply forall_frame_update_of_ne
  · intro j hj g hg howns
    have hmu := hs j g hg howns
    rcases hkeeps.others with hsame | hfree | hown
    · exact hsame.trans hmu
    · rw [hmu] at hfree
      cases hfree
    · rw [hs i f hf hown, Option.some.injEq] at hmu
      exact absurd hmu.symm hj
  · rintro _ ⟨⟩ howns
    exact hkeeps.owner howns

theorem Locked.turn (hs : Locked s.shared s.frame) {t : QState.Turn ι} (h : s.turn t = some s') :
    Locked s'.shared s'.frame := by
  cases t with
  | call i c =>
    simp only [QState.turn] at h
    split_ifs at h
    cases h
    refine forall_frame_update hs ?_
    rintro _ ⟨⟩ howns
    cases c <;> exact howns.elim
  | step env i => exact hs.step h
  | leave i =>
    obtain ⟨r, -, rfl⟩ := Option.map_eq_some_iff.mp h
    exact forall_frame_update hs (by rintro _ ⟨⟩)

/-! ### What happens after `close` -/

/-- A push that spins and finds the queue closed finds it full. -/
def SpinHeeded (s : QState (globalLockQueue ι capacity options)) : QState.Turn ι → Prop
  | .step _ i =>
    match s.frame i with
    | some (.push _ _ (.spinTest _)) =>
      Shared.closed_ s.shared = true → Shared.capacity_ s.shared ≤ (Shared.queue_ s.shared).length
    | _ => True
  | _ => True

instance (s : QState (globalLockQueue ι capacity options)) (t : QState.Turn ι) :
    Decidable (SpinHeeded s t) := by
  unfold SpinHeeded
  split
  · split <;> infer_instance
  · infer_instance

/-- Nobody is about to append to a closed queue, or waits for a notification. -/
structure Settled (x : Shared ι) (frame : ι → Option (Frame (globalLockQueue ι capacity options))) :
    Prop where
  waiters : x.closed_ = true → x.not_full_cv_ = ∅
  append : x.closed_ = true → ∀ i ev policy, frame i ≠ some (.push ev policy PushPC.append)

/-- A step of a thread that shrinks the queue, and wakes producers only. -/
structure Shrinks (x x' : Shared ι) : Prop where
  closed : x'.closed_ = x.closed_
  queue : x'.queue_ <:+ x.queue_
  waiters : x.closed_ = true → x'.not_full_cv_ ⊆ x.not_full_cv_

/-- **A push to a closed queue** changes nothing and does not succeed, unless it spins and finds
room. -/
theorem push_closed {ev : Event} {policy : BackpressurePolicy} {pc pc' : PushPC}
    (h : push env i ev policy x pc = some (x', pc')) (hpc : pc ≠ .append)
    (hspin : ∀ spins, pc = .spinTest spins → x.closed_ = true → x.capacity_ ≤ x.queue_.length) :
    Shrinks x x' ∧ (x.closed_ = true → pc' ≠ .append) ∧ pc' ≠ .returned true := by
  have hsame {y : Shared ι} (hc : y.closed_ = x.closed_) (hq : y.queue_ = x.queue_)
      (hw : y.not_full_cv_ ⊆ x.not_full_cv_) : Shrinks x y :=
    ⟨hc, hq ▸ List.suffix_rfl, fun _ => hw⟩
  have hsub := Finset.Subset.refl x.not_full_cv_
  cases pc with
  | checkClosed =>
    simp only [push, failPush] at h
    split_ifs at h with hclosed hcap hblock hwait hfull <;> cases h <;>
      exact ⟨hsame rfl rfl hsub, fun hc => by simp [hc] at hclosed ⊢, by simp⟩
  | waitTest =>
    simp only [push] at h
    split_ifs at h with hready
    · cases h
      exact ⟨hsame rfl rfl hsub, fun _ => by simp, by simp⟩
    · cases h
      exact ⟨⟨rfl, List.suffix_rfl, fun hc => absurd (by simp [hc]) hready⟩, fun _ => by simp,
        by simp⟩
  | sleeping =>
    simp only [push] at h
    split_ifs at h <;> cases h
    · exact ⟨hsame rfl rfl (Finset.erase_subset _ _), fun _ => by simp, by simp⟩
    · exact ⟨hsame rfl rfl hsub, fun _ => by simp, by simp⟩
  -- Whoever has waited tests `closed_` once more before it appends.
  | recheck =>
    simp only [push, failPush] at h
    split_ifs at h with hdone <;> cases h
    · exact ⟨hsame rfl rfl hsub, fun _ => by simp, by simp⟩
    · exact ⟨hsame rfl rfl hsub, fun hc => absurd (by simp [hc]) hdone, by simp⟩
  | spinTest spins =>
    simp only [push, failPush] at h
    split_ifs at h with hfull hdone <;> cases h
    · exact ⟨hsame rfl rfl hsub, fun _ => by simp, by simp⟩
    · exact ⟨hsame rfl rfl hsub, fun _ => by simp, by simp⟩
    · -- The loop ends without a test of `closed_`.
      exact ⟨hsame rfl rfl hsub, fun hc => absurd (hspin spins rfl hc) hfull, by simp⟩
  | append => exact absurd rfl hpc
  | returned ok => cases h
  | _ =>
    simp only [push] at h
    split_ifs at h
    cases h
    exact ⟨hsame rfl rfl hsub, fun _ => by simp, by simp⟩

theorem notifyOne_subset {wake : Option ι} {waiters waiters' : Finset ι}
    (h : notifyOne wake waiters = some waiters') : waiters' ⊆ waiters := by
  unfold notifyOne at h
  split_ifs at h with hempty
  · cases h
    exact Finset.empty_subset _
  · obtain ⟨k, -, hk⟩ := Option.bind_eq_some_iff.mp h
    split_ifs at hk
    cases hk
    exact Finset.erase_subset _ _

theorem finishPop_shrinks {r : Shared ι × PopPC} (h : finishPop env x = some r) :
    Shrinks x r.1 := by
  unfold finishPop at h
  split at h
  · cases h
    exact ⟨rfl, List.suffix_rfl, fun _ => Finset.Subset.refl _⟩
  · rename_i out rest hq
    obtain ⟨waiters, hwake, rfl⟩ := Option.map_eq_some_iff.mp h
    refine ⟨rfl, ?_, fun _ => notifyOne_subset hwake⟩
    rw [hq]
    exact List.suffix_cons _ _

theorem pop_shrinks {pc pc' : PopPC} (h : pop env i x pc = some (x', pc')) : Shrinks x x' := by
  cases pc with
  | waitTest =>
    simp only [pop] at h
    split_ifs at h
    · exact finishPop_shrinks h
    · cases h
      exact ⟨rfl, List.suffix_rfl, fun _ => Finset.Subset.refl _⟩
  | spinTest spins =>
    simp only [pop] at h
    split_ifs at h
    · cases h
      exact ⟨rfl, List.suffix_rfl, fun _ => Finset.Subset.refl _⟩
    · cases h
      exact ⟨rfl, List.suffix_rfl, fun _ => Finset.Subset.refl _⟩
    · exact finishPop_shrinks h
  | returned out => cases h
  | _ =>
    simp only [pop] at h
    split_ifs at h <;> cases h <;>
      exact ⟨rfl, List.suffix_rfl, fun _ => Finset.Subset.refl _⟩

theorem Settled.shrinks {frame : ι → Option (Frame (globalLockQueue ι capacity options))}
    {g : Option (Frame (globalLockQueue ι capacity options))} (hs : Settled x frame)
    (hx : Shrinks x x')
    (hg : x.closed_ = true → ∀ ev policy, g ≠ some (.push ev policy PushPC.append)) :
    Settled x' (Function.update frame i g) := by
  refine ⟨fun hc => ?_, fun hc => ?_⟩
  · rw [hx.closed] at hc
    exact Finset.subset_empty.mp (hs.waiters hc ▸ hx.waiters hc)
  · rw [hx.closed] at hc
    rw [Function.forall_update_iff frame fun _ g =>
      ∀ ev policy, g ≠ some (.push ev policy PushPC.append)]
    exact ⟨hg hc, fun j _ => hs.append hc j⟩

/-- A step of an operation: nobody gets to append to a closed queue. -/
theorem Settled.step (hs : Settled s.shared s.frame) (hlocked : Locked s.shared s.frame)
    (hok : SpinHeeded s (.step env i)) (h : s.step env i = some s') :
    Settled s'.shared s'.frame ∧
      (Shared.closed_ s.shared = true → Shrinks s.shared s'.shared ∧
        ∀ ev policy, s'.frame i = some (.push ev policy (PushPC.returned true)) →
          s.frame i = some (.push ev policy (PushPC.returned true))) := by
  obtain ⟨f, ⟨y, f'⟩, hf, hstep, rfl⟩ := step_eq_some h
  cases f with
  | push ev policy pc =>
    obtain ⟨⟨y, pc'⟩, hr, heq⟩ := Option.map_eq_some_iff.mp hstep
    cases heq
    by_cases hpc : pc = PushPC.append
    · -- Only a queue that is open is appended to.
      subst hpc
      have hopen : ¬ Shared.closed_ s.shared = true := fun hc => hs.append hc i ev policy hf
      obtain ⟨waiters, -, heq⟩ := Option.map_eq_some_iff.mp hr
      cases heq
      exact ⟨⟨fun hc => absurd hc hopen, fun hc => absurd hc hopen⟩, fun hc => absurd hc hopen⟩
    · obtain ⟨hshrinks, happend, hreturned⟩ := push_closed hr hpc (by
        rintro spins rfl
        simp only [SpinHeeded, hf] at hok
        exact hok)
      refine ⟨hs.shrinks hshrinks ?_, fun _ => ⟨hshrinks, ?_⟩⟩
      · rintro hc _ _ ⟨⟩
        exact happend hc rfl
      · intro _ _ hj
        simp only [Function.update_self, Option.some.injEq] at hj
        cases hj
        exact absurd rfl hreturned
  | pop pc =>
    obtain ⟨⟨y, pc'⟩, hr, heq⟩ := Option.map_eq_some_iff.mp hstep
    cases heq
    refine ⟨hs.shrinks (pop_shrinks hr) (by rintro - _ _ ⟨⟩), fun _ => ⟨pop_shrinks hr, ?_⟩⟩
    intro _ _ hj
    simp only [Function.update_self, Option.some.injEq] at hj
    cases hj
  | close done =>
    cases done
    · obtain ⟨y, hy, heq⟩ := Option.map_eq_some_iff.mp hstep
      cases heq
      obtain ⟨hmu, hy⟩ := Option.ite_none_right_eq_some.mp hy
      cases hy
      refine ⟨⟨fun _ => rfl, fun _ j ev policy hj => ?_⟩, fun hc => ⟨⟨?_, ?_, ?_⟩, ?_⟩⟩
      · -- Whoever is about to append holds the mutex, which is free.
        by_cases hji : j = i
        · subst hji
          simp only [Function.update_self, Option.some.injEq] at hj
          cases hj
        · simp only [Function.update_of_ne hji] at hj
          have howner := hlocked j _ hj trivial
          rw [hmu] at howner
          cases howner
      · exact hc.symm
      · exact List.suffix_rfl
      · exact fun _ => Finset.empty_subset _
      · intro _ _ hj
        simp only [Function.update_self, Option.some.injEq] at hj
        cases hj
    · cases hstep

/-- One turn of any thread. -/
theorem Settled.turn (hs : Settled s.shared s.frame) (hlocked : Locked s.shared s.frame)
    {t : QState.Turn ι} (hok : SpinHeeded s t) (h : s.turn t = some s') :
    Settled s'.shared s'.frame ∧
      (Shared.closed_ s.shared = true → Shrinks s.shared s'.shared) := by
  have hrefl : Shrinks s.shared s.shared :=
    ⟨rfl, List.suffix_rfl, fun _ => Finset.Subset.refl _⟩
  cases t with
  | call i c =>
    simp only [QState.turn] at h
    split_ifs at h
    cases h
    refine ⟨hs.shrinks hrefl ?_, fun _ => hrefl⟩
    rintro - ev policy heq
    cases c <;> cases heq
  | step env i =>
    obtain ⟨hsettled, hclosed⟩ := hs.step hlocked hok h
    exact ⟨hsettled, fun hc => (hclosed hc).1⟩
  | leave i =>
    obtain ⟨r, -, rfl⟩ := Option.map_eq_some_iff.mp h
    exact ⟨hs.shrinks hrefl (by rintro - _ _ ⟨⟩), fun _ => hrefl⟩

/-- The thread `i` is in a push that has not returned `true`. -/
def Declines (s : QState (globalLockQueue ι capacity options)) (i : ι) : Prop :=
  ∃ ev policy pc, s.frame i = some (.push ev policy pc) ∧ pc ≠ PushPC.returned true

/-- A push to a closed queue is declined, however long it takes. -/
theorem Declines.turn (hd : Declines s i) (hs : Settled s.shared s.frame)
    (hlocked : Locked s.shared s.frame) (hc : Shared.closed_ s.shared = true) {t : QState.Turn ι}
    (hok : SpinHeeded s t) (hi : t ≠ .leave i) (h : s.turn t = some s') : Declines s' i := by
  obtain ⟨ev, policy, pc, hf, hpc⟩ := hd
  cases t with
  | call j c =>
    simp only [QState.turn] at h
    split_ifs at h with hfree
    cases h
    have hij : i ≠ j := by
      rintro rfl
      simp [hf] at hfree
    exact ⟨ev, policy, pc, (Function.update_of_ne hij _ _).trans hf, hpc⟩
  | step env j =>
    have hreturned := ((hs.step hlocked hok h).2 hc).2
    obtain ⟨f, ⟨y, f'⟩, hf', hstep, rfl⟩ := step_eq_some h
    by_cases hij : i = j
    · subst hij
      rw [hf, Option.some.injEq] at hf'
      subst hf'
      obtain ⟨⟨y, pc'⟩, hr, heq⟩ := Option.map_eq_some_iff.mp hstep
      cases heq
      refine ⟨ev, policy, pc', Function.update_self .., ?_⟩
      rintro rfl
      have := hreturned ev policy (Function.update_self ..)
      rw [hf] at this
      cases this
      exact hpc rfl
    · exact ⟨ev, policy, pc, (Function.update_of_ne hij _ _).trans hf, hpc⟩
  | leave j =>
    obtain ⟨r, -, rfl⟩ := Option.map_eq_some_iff.mp h
    have hij : i ≠ j := by
      rintro rfl
      exact hi rfl
    exact ⟨ev, policy, pc, (Function.update_of_ne hij _ _).trans hf, hpc⟩

theorem Declines.returned (hd : Declines s i) {r : Return} (hr : s.returned i = some r) :
    r = .pushed false := by
  obtain ⟨ev, policy, pc, hf, hpc⟩ := hd
  obtain ⟨f, hf', hres⟩ := returned_eq_some hr
  rw [hf, Option.some.injEq] at hf'
  subst hf'
  obtain ⟨ok, hok, rfl⟩ := Option.map_eq_some_iff.mp hres
  cases pc <;> cases hok
  cases ok
  · rfl
  · exact absurd rfl hpc

/-- What holds along a run whose spinning pushes find a closed queue full. -/
theorem settled_of_turns (h : Relation.ReflTransGen (QState.TurnIf SpinHeeded) (QState.start _) s) :
    Locked s.shared s.frame ∧ Settled s.shared s.frame := by
  induction h with
  | refl =>
    refine ⟨?_, nofun, nofun⟩
    rintro i f ⟨⟩
  | tail _ hstep ih =>
    obtain ⟨t, hok, ht⟩ := hstep
    exact ⟨ih.1.turn ht, (ih.2.turn ih.1 hok ht).1⟩

/-- The same after `close`. -/
theorem closed_of_turns {ok : QState (globalLockQueue ι capacity options) → QState.Turn ι → Prop}
    (hle : ∀ s t, ok s t → SpinHeeded s t) (hlocked : Locked s.shared s.frame)
    (hs : Settled s.shared s.frame) (hc : Shared.closed_ s.shared = true)
    (h : Relation.ReflTransGen (QState.TurnIf ok) s s') :
    Locked s'.shared s'.frame ∧ Settled s'.shared s'.frame ∧ Shared.closed_ s'.shared = true := by
  induction h with
  | refl => exact ⟨hlocked, hs, hc⟩
  | tail _ hstep ih =>
    obtain ⟨t, hok, ht⟩ := hstep
    obtain ⟨hlocked, hs, hc⟩ := ih
    obtain ⟨hs', hshrinks⟩ := hs.turn hlocked (hle _ _ hok) ht
    exact ⟨hlocked.turn ht, hs', (hshrinks hc).closed.trans hc⟩

theorem Declines.turns {ok : QState (globalLockQueue ι capacity options) → QState.Turn ι → Prop}
    (hle : ∀ s t, ok s t → SpinHeeded s t ∧ t ≠ .leave i) (hd : Declines s i)
    (hlocked : Locked s.shared s.frame) (hs : Settled s.shared s.frame)
    (hc : Shared.closed_ s.shared = true) (h : Relation.ReflTransGen (QState.TurnIf ok) s s') :
    Declines s' i := by
  induction h with
  | refl => exact hd
  | tail hrun hstep ih =>
    obtain ⟨t, hok, ht⟩ := hstep
    obtain ⟨hheeded, hi⟩ := hle _ _ hok
    obtain ⟨hlocked', hs', hc'⟩ := closed_of_turns (fun s t h => (hle s t h).1) hlocked hs hc hrun
    exact ih.turn hs' hlocked' hc' hheeded hi ht

/-- **`close` is final**, under both wait strategies, if no spinning push finds the closed queue
with room: from then on every turn leaves the queue as it is or takes events from its front, no
push waits on the condition variable, and a push that has not returned `true` by then returns
`false`. -/
theorem close_final (h : Relation.ReflTransGen (QState.TurnIf SpinHeeded) (QState.start _) s)
    (hclosed : Shared.closed_ s.shared = true) :
    (∀ s' s'', Relation.ReflTransGen (QState.TurnIf SpinHeeded) s s' →
      QState.TurnIf SpinHeeded s' s'' →
        Shared.queue_ s''.shared <:+ Shared.queue_ s'.shared ∧
          Shared.not_full_cv_ s''.shared = ∅) ∧
      ∀ i ev policy pc, s.frame i = some (.push ev policy pc) → pc ≠ PushPC.returned true →
        ∀ s', Relation.ReflTransGen
          (QState.TurnIf fun s t => SpinHeeded s t ∧ t ≠ .leave i) s s' →
            ∀ r, s'.returned i = some r → r = .pushed false := by
  obtain ⟨hlocked, hs⟩ := settled_of_turns h
  refine ⟨fun s' s'' hrun hturn => ?_, fun i ev policy pc hf hpc s' hrun r hr => ?_⟩
  · obtain ⟨hlocked', hs', hc'⟩ := closed_of_turns (fun _ _ hok => hok) hlocked hs hclosed hrun
    obtain ⟨t, hok, ht⟩ := hturn
    obtain ⟨hs'', hshrinks⟩ := hs'.turn hlocked' hok ht
    exact ⟨(hshrinks hc').queue, hs''.waiters ((hshrinks hc').closed.trans hc')⟩
  · have hd : Declines s i := ⟨ev, policy, pc, hf, hpc⟩
    exact (hd.turns (fun _ _ hok => hok) hlocked hs hclosed hrun).returned hr

/-! ### A push that spins -/

instance (t : QState.Turn ι) (i : ι) : Decidable (t = .leave i) :=
  match t with
  | .leave j => decidable_of_iff (j = i) ⟨congrArg _, fun h => by cases h; rfl⟩
  | .call _ _ | .step _ _ => .isFalse nofun

open QState.Turn in
/-- Thread `0` fills the queue, thread `1` spins for room, and thread `0` closes the queue. -/
def spinTurns : List (QState.Turn (Fin 3)) :=
  call 0 (.push { id := 7 } .block) :: List.replicate 4 (step {} 0) ++
    [leave 0, call 1 (.push { id := 8 } .block)] ++ List.replicate 3 (step {} 1) ++
      [call 0 .close, step {} 0, leave 0]

/-- Thread `2` pops, and thread `1` looks at the queue again. -/
def lateTurns : List (QState.Turn (Fin 3)) :=
  [.call 2 .pop, .step {} 2, .step {} 2, .leave 2, .step {} 1, .step {} 1, .step {} 1]

def spinState : QState (globalLockQueue (Fin 3) 1 { wait_strategy := .spinYield }) :=
  ((QState.start _).runIf SpinHeeded spinTurns).get (by decide)

theorem close_final_spin :
    spinState.frame 1 = some (.push { id := 8 } .block (PushPC.relock 0)) ∧
      (∀ s' s'', Relation.ReflTransGen (QState.TurnIf SpinHeeded) spinState s' →
        QState.TurnIf SpinHeeded s' s'' →
          Shared.queue_ s''.shared <:+ Shared.queue_ s'.shared ∧
            Shared.not_full_cv_ s''.shared = ∅) ∧
        ∀ i ev policy pc, spinState.frame i = some (.push ev policy pc) →
          pc ≠ PushPC.returned true → ∀ s', Relation.ReflTransGen
            (QState.TurnIf fun s t => SpinHeeded s t ∧ t ≠ .leave i) spinState s' →
              ∀ r, s'.returned i = some r → r = .pushed false :=
  ⟨rfl, close_final (QState.turns_of_runIf (Option.some_get _).symm) rfl⟩

/-- **A spinning push appends to a closed queue**: it waits for room when the queue is closed, an
event is popped, and the push finds room, appends its event and returns `true`. -/
theorem append_after_close :
    ∃ s s' : QState (globalLockQueue (Fin 3) 1 { wait_strategy := .spinYield }),
      Relation.ReflTransGen (QState.TurnIf fun _ _ => True) (QState.start _) s ∧
        Shared.closed_ s.shared = true ∧ Shared.queue_ s.shared = [{ id := 7 }] ∧
          s.frame 1 = some (.push { id := 8 } .block (PushPC.relock 0)) ∧
            Relation.ReflTransGen (QState.TurnIf fun _ t => t ≠ .leave 1) s s' ∧
              Shared.queue_ s'.shared = [{ id := 8 }] ∧ s'.returned 1 = some (.pushed true) :=
  ⟨_, _, QState.turns_of_runIf (Option.some_get (by decide : ((QState.start _).runIf _
    spinTurns).isSome)).symm, rfl, rfl, rfl, QState.turns_of_runIf (Option.some_get (by decide :
      (QState.runIf _ _ lateTurns).isSome)).symm, rfl, rfl⟩

/-! ### Runs without spinning pushes -/

/-- No push waits for room by spinning: it drops its event, or the queue is not bounded, or waits on
the condition variable. -/
def Spinless (capacity : ℕ) (options : QueueOptions) (policy : BackpressurePolicy) : Prop :=
  policy = .drop ∨ capacity = 0 ∨
    resolveWaitStrategy .globalLock options.wait_strategy = .conditionVariable

def PushPC.spins : PushPC → Prop
  | .spinTest _ | .relock _ => True
  | _ => False

/-- No step changes the capacity or the strategy. -/
structure KeepsConfig (x x' : Shared ι) : Prop where
  capacity : x'.capacity_ = x.capacity_
  strategy : x'.wait_strategy_ = x.wait_strategy_

theorem finishPop_keepsConfig {r : Shared ι × PopPC} (h : finishPop env x = some r) :
    KeepsConfig x r.1 := by
  unfold finishPop at h
  split at h
  · cases h
    exact ⟨rfl, rfl⟩
  · obtain ⟨waiters, -, rfl⟩ := Option.map_eq_some_iff.mp h
    exact ⟨rfl, rfl⟩

theorem push_keepsConfig {ev : Event} {policy : BackpressurePolicy} {pc pc' : PushPC}
    (h : push env i ev policy x pc = some (x', pc')) : KeepsConfig x x' := by
  cases pc with
  | append =>
    obtain ⟨waiters, -, heq⟩ := Option.map_eq_some_iff.mp h
    cases heq
    exact ⟨rfl, rfl⟩
  | returned ok => cases h
  | _ =>
    simp only [push, failPush] at h
    split_ifs at h <;> cases h <;> exact ⟨rfl, rfl⟩

theorem pop_keepsConfig {pc pc' : PopPC} (h : pop env i x pc = some (x', pc')) :
    KeepsConfig x x' := by
  cases pc with
  | returned out => cases h
  | _ =>
    simp only [pop] at h
    split_ifs at h <;>
      first
      | exact finishPop_keepsConfig h
      | (cases h; exact ⟨rfl, rfl⟩)

theorem stepFrame_keepsConfig (h : QState.stepFrame env i x f = some (x', f')) :
    KeepsConfig x x' := by
  cases stepFrame_cases h with
  | push h => exact push_keepsConfig h
  | pop h => exact pop_keepsConfig h
  | close h =>
    obtain ⟨-, hx⟩ := Option.ite_none_right_eq_some.mp h
    cases hx
    exact ⟨rfl, rfl⟩

/-- A push that does not wait by spinning does not get into the loop. -/
theorem push_spinless {ev : Event} {policy : BackpressurePolicy} {pc pc' : PushPC}
    (h : push env i ev policy x pc = some (x', pc')) (hpc : ¬ pc.spins)
    (hx : policy = .drop ∨ x.capacity_ = 0 ∨ x.wait_strategy_ = .conditionVariable) :
    ¬ pc'.spins := by
  cases pc with
  | checkClosed =>
    simp only [push, failPush] at h
    split_ifs at h with hclosed hcap hblock hwait hfull <;> cases h
    · exact id
    · exact id
    · exact id
    · rcases hx with hdrop | hzero | hcv
      · cases hblock.symm.trans hdrop
      · exact absurd hzero hcap
      · exact absurd hcv hwait
    · exact id
    · exact id
  | append =>
    obtain ⟨waiters, -, heq⟩ := Option.map_eq_some_iff.mp h
    cases heq
    exact id
  | spinTest spins => exact absurd trivial hpc
  | relock spins => exact absurd trivial hpc
  | returned ok => cases h
  | _ =>
    simp only [push, failPush] at h
    split_ifs at h <;> cases h <;> exact id

/-- Nobody spins. -/
structure NoneSpins (x : Shared ι)
    (frame : ι → Option (Frame (globalLockQueue ι capacity options))) : Prop where
  capacity_eq : x.capacity_ = capacity
  strategy_eq : x.wait_strategy_ = resolveWaitStrategy .globalLock options.wait_strategy
  pushes : ∀ i f, frame i = some f → ∀ ev policy (pc : PushPC), f = .push ev policy pc →
    ¬ pc.spins ∧ Spinless capacity options policy

theorem NoneSpins.spinHeeded (hs : NoneSpins s.shared s.frame) (t : QState.Turn ι) :
    SpinHeeded s t := by
  cases t with
  | step env i =>
    simp only [SpinHeeded]
    split
    · rename_i hf
      exact absurd trivial (hs.pushes i _ hf _ _ _ rfl).1
    · trivial
  | _ => trivial

theorem NoneSpins.turn (hs : NoneSpins s.shared s.frame) {t : QState.Turn ι}
    (hcall : ∀ i ev policy, t = .call i (.push ev policy) → Spinless capacity options policy)
    (h : s.turn t = some s') : NoneSpins s'.shared s'.frame := by
  cases t with
  | call i c =>
    simp only [QState.turn] at h
    split_ifs at h
    cases h
    refine ⟨hs.capacity_eq, hs.strategy_eq, forall_frame_update hs.pushes ?_⟩
    rintro _ ⟨⟩ ev policy pc hf
    cases c with
    | push ev' policy' =>
      cases hf
      exact ⟨id, hcall i _ _ rfl⟩
    | _ => cases hf
  | step env i =>
    obtain ⟨f, ⟨y, f'⟩, hf, hr, rfl⟩ := step_eq_some h
    have hkeeps := stepFrame_keepsConfig hr
    refine ⟨hkeeps.capacity.trans hs.capacity_eq, hkeeps.strategy.trans hs.strategy_eq,
      forall_frame_update hs.pushes ?_⟩
    rintro _ ⟨⟩ ev policy pc' rfl
    cases f with
    | push ev' policy' pc =>
      obtain ⟨⟨z, pc''⟩, hpush, heq⟩ := Option.map_eq_some_iff.mp hr
      cases heq
      obtain ⟨hpc, hspinless⟩ := hs.pushes i _ hf _ _ _ rfl
      refine ⟨push_spinless hpush hpc ?_, hspinless⟩
      rw [hs.capacity_eq, hs.strategy_eq]
      exact hspinless
    | pop pc =>
      obtain ⟨⟨z, pc''⟩, -, heq⟩ := Option.map_eq_some_iff.mp hr
      cases heq
    | close done =>
      cases done
      · obtain ⟨z, -, heq⟩ := Option.map_eq_some_iff.mp hr
        cases heq
      · cases hr
  | leave i =>
    obtain ⟨r, -, rfl⟩ := Option.map_eq_some_iff.mp h
    exact ⟨hs.capacity_eq, hs.strategy_eq, forall_frame_update hs.pushes (by rintro _ ⟨⟩)⟩

/-- **Without pushes that wait by spinning** every run meets the condition of `close_final`. -/
theorem spinHeeded_of_spinless
    (h : Relation.ReflTransGen
      (QState.TurnIf fun (_ : QState (globalLockQueue ι capacity options)) t =>
        ∀ i ev policy, t = .call i (.push ev policy) → Spinless capacity options policy)
      (QState.start _) s) :
    Relation.ReflTransGen (QState.TurnIf SpinHeeded) (QState.start _) s := by
  have hnone : Relation.ReflTransGen (QState.TurnIf SpinHeeded) (QState.start _) s ∧
      NoneSpins s.shared s.frame := by
    induction h with
    | refl => exact ⟨.refl, rfl, rfl, by rintro i f ⟨⟩⟩
    | tail _ hstep ih =>
      obtain ⟨t, hcall, ht⟩ := hstep
      exact ⟨ih.1.tail ⟨t, ih.2.spinHeeded t, ht⟩, ih.2.turn hcall ht⟩
  exact hnone.1

end GlobalLockQueue

end Laboratory.QueueLatency
