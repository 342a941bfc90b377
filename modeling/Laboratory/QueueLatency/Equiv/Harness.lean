import Laboratory.QueueLatency.Equiv.FlagTests
import Laboratory.QueueLatency.Equiv.PipelineCounts
import Laboratory.QueueLatency.Harness

/-!
# What the harness measures

`produced_eq_consumed_iff`: a run that returns has a sample for each consumed event, and has
consumed every measured event that it has produced if and only if no test of a flag came at a bad
moment (`StopHeeded`).

It may come at one: the main thread sets `stop` and closes the queue while producers may be inside
`push`.  A `pop` leaves on a flag although an event has been stored since it looked, or will be by
a `push` that has passed its tests; and a `push` may pass them after that (`measured_event_lost`).
-/

namespace Laboratory.QueueLatency

open Concurrency
open Pipeline (worth)

namespace Scenario

variable {P : ℕ} {Q : IEventQueue (Thread P)} {config : ScenarioConfig} {times : Times} {now : ℤ}
  {g g' : RunState} {call : Call} {H : Program.Protocol (scenario Q config times)}
  {s s' : (scenario Q config times).State} {c : (scenario Q config times).Choice}

/-! ### What the threads do -/

theorem issues_producer {i : Fin P} {l : ProducerLoc}
    (h : (scenario Q config times).Issues (.producer i) l () call) :
    ∃ v ev, l = .push v ev ∧ call = .push ev config.policy := by
  obtain ⟨now, g, loc, rfl, hact⟩ := h
  change actProducer config times now i g (loc (.producer i)) = _ at hact
  generalize (loc (.producer i) : ProducerLoc) = l at hact
  cases l with
  | push v ev =>
    cases hact
    exact ⟨v, ev, rfl, rfl⟩
  | readClock v =>
    simp only [actProducer] at hact
    split_ifs at hact <;> cases hact
  | _ => cases hact

theorem issues_consumer {l : ConsumerLoc}
    (h : (scenario Q config times).Issues .consumer l () call) : l = .pop ∧ call = .pop := by
  obtain ⟨now, g, loc, rfl, hact⟩ := h
  change actConsumer times now g (loc .consumer) = _ at hact
  generalize (loc .consumer : ConsumerLoc) = l at hact
  cases l with
  | pop =>
    cases hact
    exact ⟨rfl, rfl⟩
  | measure ev =>
    simp only [actConsumer] at hact
    split_ifs at hact <;> cases hact
  | _ => cases hact

theorem issues_main {l : MainLoc P} (h : (scenario Q config times).Issues .main l () call) :
    l = .close ∧ call = .close := by
  obtain ⟨now, g, loc, rfl, hact⟩ := h
  change actMain times now g loc (loc .main) = _ at hact
  generalize (loc .main : MainLoc P) = l at hact
  cases l with
  | close =>
    cases hact
    exact ⟨rfl, rfl⟩
  | joinProducers rest =>
    cases rest with
    | nil => cases hact
    | cons i rest =>
      simp only [actMain] at hact
      split_ifs at hact
      cases hact
  | joinConsumer =>
    simp only [actMain] at hact
    split_ifs at hact
    cases hact
  | _ => cases hact

/-- Only the consumer pops. -/
theorem eq_consumer_of_pop {t : Thread P} {l : Loc t}
    (h : (scenario Q config times).Issues t l () .pop) : t = .consumer := by
  rcases t with i | _ | _
  · obtain ⟨v, ev, -, hcall⟩ := issues_producer h
    cases hcall
  · rfl
  · cases (issues_main h).2

/-- The rule for the calls: a ring for one producer and one consumer has these. -/
theorem disciplined {kind : QueueKind} (hspsc : kind = .spscRing → P = 1) {t : Thread P} {l : Loc t}
    (h : (scenario Q config times).Issues t l () call) :
    Disciplined kind (if h : 0 < P then .producer ⟨0, h⟩ else .main) .consumer t call := by
  intro hkind
  obtain rfl := hspsc hkind
  rcases t with i | _ | _
  · obtain ⟨v, ev, -, rfl⟩ := issues_producer h
    rw [Subsingleton.elim i 0]
    rfl
  · obtain ⟨-, rfl⟩ := issues_consumer h
    rfl
  · obtain ⟨-, rfl⟩ := issues_main h
    trivial

/-! ### Keeping count -/

def ProducerLoc.pending : ProducerLoc → ℤ
  | .countProduced _ => 1
  | _ => 0

def ConsumerLoc.pending (times : Times) : ConsumerLoc → ℤ
  | .measure ev => -worth times ev
  | .countConsumed _ => -1
  | _ => 0

def ConsumerLoc.unsampled : ConsumerLoc → ℤ
  | .record _ => 1
  | _ => 0

/-- The produced events that are not consumed. -/
def flow (g : RunState) : ℤ :=
  g.produced - g.consumed

/-- The latencies, less the consumed events. -/
def sampled (g : RunState) : ℤ :=
  g.latencies_ns.length - g.consumed

theorem flow_actProducer {i : Fin P} {l l' : ProducerLoc}
    (h : actProducer config times now i g l = some (.own g' l')) :
    flow g' + l'.pending = flow g + l.pending ∧ sampled g' = sampled g := by
  cases l with
  | testStop v =>
    cases h
    split_ifs <;> exact ⟨rfl, rfl⟩
  | readClock v =>
    simp only [actProducer] at h
    split_ifs at h <;> cases h <;> exact ⟨rfl, rfl⟩
  | push v ev => cases h
  | countProduced v =>
    cases h
    refine ⟨?_, rfl⟩
    simp only [flow, ProducerLoc.pending]
    omega
  | done => cases h
  | _ =>
    cases h
    exact ⟨rfl, rfl⟩

theorem flow_actConsumer {l l' : ConsumerLoc}
    (h : actConsumer times now g l = some (.own g' l')) :
    flow g' + l'.pending times = flow g + l.pending times ∧
      sampled g' + l'.unsampled = sampled g + l.unsampled := by
  cases l with
  | pop => cases h
  | measure ev =>
    simp only [actConsumer] at h
    split_ifs at h with hm <;> cases h <;>
      simp [ConsumerLoc.pending, ConsumerLoc.unsampled, worth, hm]
  | countConsumed latency =>
    cases h
    simp only [flow, sampled, ConsumerLoc.pending, ConsumerLoc.unsampled]
    constructor <;> omega
  | record latency =>
    cases h
    refine ⟨rfl, ?_⟩
    simp only [sampled, ConsumerLoc.unsampled, List.length_append, List.length_singleton]
    omega
  | done => cases h

theorem flow_actMain {loc : ∀ t : Thread P, Loc t} {l l' : MainLoc P}
    (h : actMain times now g loc l = some (.own g' l')) :
    flow g' = flow g ∧ sampled g' = sampled g := by
  cases l with
  | joinProducers rest =>
    cases rest with
    | nil =>
      cases h
      exact ⟨rfl, rfl⟩
    | cons i rest =>
      simp only [actMain] at h
      split_ifs at h
      cases h
      exact ⟨rfl, rfl⟩
  | joinConsumer =>
    simp only [actMain] at h
    split_ifs at h
    cases h
    exact ⟨rfl, rfl⟩
  | close => cases h
  | done => cases h
  | _ =>
    cases h
    exact ⟨rfl, rfl⟩

/-- A measured event that is pushed is produced, and one that is popped is consumed. -/
def flowLedger (Q : IEventQueue (Thread P)) (config : ScenarioConfig) (times : Times) :
    Ledger (scenario Q config times) where
  book := flow
  pending
    | .producer _, l => ProducerLoc.pending l
    | .consumer, l => ConsumerLoc.pending times l
    | .main, _ => 0
  pushed _ ev := worth times ev
  popped _ ev := -worth times ev

/-- A consumed event has a latency. -/
def sampleLedger (Q : IEventQueue (Thread P)) (config : ScenarioConfig) (times : Times) :
    Ledger (scenario Q config times) where
  book := sampled
  pending
    | .consumer, l => ConsumerLoc.unsampled l
    | _, _ => 0
  pushed _ _ := 0
  popped _ _ := 0

theorem resumeProducer_pending (v : Producer) (ev : Event) (ok : Bool) :
    (resumeProducer config times (.push v ev) (.pushed ok)).pending =
      if ok then worth times ev else 0 := by
  cases ok
  · simp only [resumeProducer]
    split_ifs <;> simp_all [ProducerLoc.pending]
  · simp only [resumeProducer, worth]
    split_ifs <;> rfl

theorem flowLedger_resume {t : Thread P} {l : Loc t} {r : Return}
    (hissued : (scenario Q config times).Issues t l () call) (hanswer : call.Answer r) :
    (flowLedger Q config times).pending t ((scenario Q config times).resume t l r) =
      (flowLedger Q config times).pending t l + (flowLedger Q config times).entry () call r := by
  rcases t with i | _ | _
  · obtain ⟨v, ev, rfl, rfl⟩ := issues_producer hissued
    obtain ⟨ok, rfl⟩ := hanswer.push
    refine (resumeProducer_pending v ev ok).trans ?_
    cases ok <;> exact (zero_add _).symm
  · obtain ⟨rfl, rfl⟩ := issues_consumer hissued
    rcases hanswer.pop with ⟨out, rfl⟩ | ⟨ev, rfl⟩
    · rfl
    · exact (zero_add _).symm
  · obtain ⟨rfl, rfl⟩ := issues_main hissued
    rfl

theorem resumeConsumer_unsampled (l : ConsumerLoc) (r : Return) :
    (resumeConsumer l r).unsampled = l.unsampled := by
  unfold resumeConsumer
  split <;> rfl

/-- **The counts of every run are in balance.** -/
theorem balanced (H : Program.Protocol (scenario Q config times))
    (h : (scenario Q config times).Reachable s) :
    (flowLedger Q config times).Balanced s ∧ (sampleLedger Q config times).Balanced s := by
  induction h with
  | refl =>
    constructor <;> refine Ledger.balanced_initial rfl ?_ <;> rintro (i | _ | _) <;> rfl
  | tail hreach hstep ih =>
    obtain ⟨⟨t, now, _, _, _⟩, -, hc⟩ := hstep
    have hgood : Program.Good H _ := Program.good_of_reachableIf hreach
    refine ⟨ih.1.step hgood ?_ ?_ hc, ih.2.step hgood ?_ ?_ hc⟩
    · intro g l hact
      rcases t with i | _ | _
      · exact (flow_actProducer hact).1
      · exact (flow_actConsumer hact).1
      · exact congrArg (· + 0) (flow_actMain hact).1
    · intro q f r _ hissued hanswer _
      exact flowLedger_resume hissued hanswer
    · intro g l hact
      rcases t with i | _ | _
      · exact congrArg (· + 0) (flow_actProducer hact).2
      · exact (flow_actConsumer hact).2
      · exact congrArg (· + 0) (flow_actMain hact).2
    · intro q f r _ _ _ _
      have hentry : (sampleLedger Q config times).entry q f.toCall r = 0 := by
        unfold Ledger.entry
        split <;> rfl
      rw [hentry, add_zero]
      rcases t with i | _ | _
      · rfl
      · exact resumeConsumer_unsampled _ r
      · rfl

/-! ### The end of a run -/

namespace MainLoc

/-- The main thread has joined the producer `i`. -/
def joinedProducer (i : Fin P) : MainLoc P → Prop
  | .joinProducers rest => i ∉ rest
  | .joinConsumer | .done => True
  | _ => False

def joinedConsumer : MainLoc P → Prop
  | .done => True
  | _ => False

end MainLoc

/-- What the main thread knows at the place `l`: the threads it has joined are done. -/
structure Joined (loc : ∀ t : Thread P, Loc t) (l : MainLoc P) : Prop where
  producer : ∀ i, l.joinedProducer i → loc (.producer i) = ProducerLoc.done
  consumer : l.joinedConsumer → loc .consumer = ConsumerLoc.done

theorem producer_isDone {l : ProducerLoc} (h : l.isDone = true) : l = .done := by
  revert h
  cases l <;> simp [ProducerLoc.isDone]

theorem consumer_isDone {l : ConsumerLoc} (h : l.isDone = true) : l = .done := by
  revert h
  cases l <;> simp [ConsumerLoc.isDone]

/-- The main thread goes on: what it joins is done. -/
theorem Joined.own {loc : ∀ t : Thread P, Loc t} {l l' : MainLoc P} (hl : Joined loc l)
    (hact : actMain times now g loc l = some (.own g' l')) : Joined loc l' := by
  cases l with
  | sleep =>
    cases hact
    split_ifs <;> exact ⟨fun _ h => h.elim, fun h => h.elim⟩
  | stop =>
    cases hact
    exact ⟨fun _ h => h.elim, fun h => h.elim⟩
  | close => cases hact
  | joinProducers rest =>
    cases rest with
    | nil =>
      cases hact
      exact ⟨fun i _ => hl.producer i (List.not_mem_nil), fun h => h.elim⟩
    | cons i rest =>
      simp only [actMain] at hact
      split_ifs at hact with hdone
      cases hact
      refine ⟨fun j hj => ?_, fun h => h.elim⟩
      by_cases hji : j = i
      · subst hji
        exact producer_isDone hdone
      · exact hl.producer j (by simpa [MainLoc.joinedProducer, hji] using hj)
  | joinConsumer =>
    simp only [actMain] at hact
    split_ifs at hact with hdone
    cases hact
    exact ⟨fun i _ => hl.producer i trivial, fun _ => consumer_isDone hdone⟩
  | done => cases hact

theorem Joined.resume {loc : ∀ t : Thread P, Loc t} {l : MainLoc P} (hl : Joined loc l)
    (r : Return) : Joined loc (resumeMain l r) := by
  unfold resumeMain
  split
  · exact ⟨fun i hi => absurd (List.mem_finRange i) hi, fun h => h.elim⟩
  · exact hl

theorem producer_stays {i : Fin P} (h : (scenario Q config times).step c s = some s')
    (hi : s.loc (.producer i) = ProducerLoc.done) : s'.loc (.producer i) = ProducerLoc.done := by
  refine Program.loc_stays ?_ (fun r => rfl) h hi
  intro input g loc g' l' hl hact
  change actProducer config times input i g (loc (.producer i)) = _ at hact
  rw [hl] at hact
  cases hact

theorem consumer_stays (h : (scenario Q config times).step c s = some s')
    (hk : s.loc .consumer = ConsumerLoc.done) : s'.loc .consumer = ConsumerLoc.done := by
  refine Program.loc_stays ?_ (fun r => rfl) h hk
  intro input g loc g' l' hl hact
  change actConsumer times input g (loc .consumer) = _ at hact
  rw [hl] at hact
  cases hact

/-- **The threads that have been joined are done**, in every state of a run. -/
theorem joined (h : (scenario Q config times).Reachable s) : Joined s.loc (s.loc .main) := by
  induction h with
  | refl => exact ⟨fun _ h => h.elim, fun h => h.elim⟩
  | @tail s s' _ hstep ih =>
    obtain ⟨c, -, hc⟩ := hstep
    -- What is done stays done, so only the place of the main thread matters.
    have hmono : ∀ l, Joined s.loc l → Joined s'.loc l := fun l hl =>
      ⟨fun i hi => producer_stays hc (hl.producer i hi),
        fun hk => consumer_stays hc (hl.consumer hk)⟩
    by_cases ht : c.thread = .main
    · obtain ⟨t, now, _, _, _⟩ := c
      change t = .main at ht
      subst ht
      rcases Program.loc_cases hc with hloc | ⟨l, hloc, h⟩
      · exact hmono _ (by rw [hloc]; exact ih)
      · rw [show s'.loc .main = l by rw [hloc]; exact Function.update_self ..]
        apply hmono
        rcases h with ⟨g, hact⟩ | ⟨q, r, -, -, rfl⟩
        · exact ih.own hact
        · exact ih.resume r
    · rw [(Program.others_eq hc (Ne.symm ht)).2.2]
      exact hmono _ ih

/-! ### When the consumer leaves -/

/-- A `pop` returns `false`. -/
def popFails : Return → Bool
  | .popped false _ => true
  | _ => false

/-- The last `pop` of the consumer has returned `false`, or is about to. -/
def HasGivenUp (loc : ∀ t : Thread P, Loc t) (x : QState Q) : Prop :=
  ConsumerLoc.isDone (loc .consumer) = true ∨ (x.returned .consumer).any popFails = true

/-- No measured event is in the queue, and no `push` that has passed its tests holds one. -/
def NoneOwed (times : Times) (x : QState Q) : Prop :=
  ∀ ev, x.Owes ev → isMeasuredEvent times ev = false

/-- **The flags are heeded in a step**: a `pop` that leaves because a flag is up leaves no measured
event behind, in the queue or in a `push` that has passed its tests; and a `push` of a measured
event does not pass its tests when the consumer has given up. -/
def StopHeeded (s : (scenario Q config times).State) (c : (scenario Q config times).Choice) :
    Prop :=
  ((s.queue ()).leaves (c.env s).stop c.thread = true → NoneOwed times (s.queue ())) ∧
    ∀ ev ∈ (s.queue ()).passing (c.env s).stop c.thread, HasGivenUp s.loc (s.queue ()) →
      isMeasuredEvent times ev = false

theorem noneOwed_iff {x : QState Q} : NoneOwed times x ↔
    (∀ ev ∈ Q.content x.shared, isMeasuredEvent times ev = false) ∧
      ∀ t, ∀ ev ∈ x.storing t, isMeasuredEvent times ev = false := by
  constructor
  · intro h
    exact ⟨fun ev hev => h ev (.inl hev), fun t ev hev => h ev (.inr ⟨t, hev⟩)⟩
  · rintro ⟨hcontent, hstoring⟩ ev (hev | ⟨t, hev⟩)
    · exact hcontent ev hev
    · exact hstoring t ev hev

instance (x : QState Q) : Decidable (NoneOwed times x) :=
  decidable_of_iff' _ noneOwed_iff

instance (s : (scenario Q config times).State) (c : (scenario Q config times).Choice) :
    Decidable (StopHeeded s c) :=
  inferInstanceAs (Decidable ((_ → _) ∧ ∀ ev ∈ QState.passing _ _ _, _ ∨ _ → _))

/-- A `pop` that has returned `false` is on its way out. -/
theorem phase_of_popFails (hs : Program.Good H s) {t : Thread P}
    (h : ((s.queue ()).returned t).any popFails = true) : H.phase s () t = .leaving := by
  obtain ⟨r, hr, hfails⟩ := (Option.any_eq_true _ _).mp h
  obtain ⟨f, hf, hres⟩ := returned_eq_some hr
  have hreports := ((H.refines ()).reports (hs.queue ()).inv hf hres).2
  rw [show H.phase s () t = (H.A ()).framePhase f from phases_eq _ hf]
  unfold popFails at hfails
  split at hfails
  · exact hreports
  · cases hfails

/-- The consumer's own code does not end. -/
theorem not_done_of_own {l l' : ConsumerLoc} (h : actConsumer times now g l = some (.own g' l')) :
    l'.isDone = false := by
  cases l with
  | pop => cases h
  | measure ev =>
    simp only [actConsumer] at h
    split_ifs at h <;> cases h <;> rfl
  | done => cases h
  | _ =>
    cases h
    rfl

/-- The consumer goes on to the end of its code from a `pop` that has failed. -/
theorem popFails_of_resume {l : ConsumerLoc} {r : Return}
    (h : (resumeConsumer l r).isDone = true) : l.isDone = true ∨ popFails r = true := by
  unfold resumeConsumer at h
  split at h
  · cases h
  · exact .inr rfl
  · exact .inl h

/-- Whether the consumer has given up is for the consumer to say. -/
theorem hasGivenUp_iff_of_ne (hc : (scenario Q config times).step c s = some s')
    (ht : c.thread ≠ .consumer) :
    HasGivenUp s'.loc (s'.queue ()) ↔ HasGivenUp s.loc (s.queue ()) := by
  obtain ⟨hframe, -, hloc⟩ := Program.others_eq hc (Ne.symm ht)
  unfold HasGivenUp QState.returned
  rw [hloc, hframe]

/-- The consumer gives up where a `pop` leaves. -/
theorem hasGivenUp_or_leaves (hlaw : FlagLaw Q) (hgood : Program.Good H s')
    (hc : (scenario Q config times).step c s = some s')
    (hgone : HasGivenUp s'.loc (s'.queue ())) :
    HasGivenUp s.loc (s.queue ()) ∨ (s.queue ()).leaves (c.env s).stop c.thread = true := by
  have hothers := hasGivenUp_iff_of_ne hc
  by_cases ht : c.thread = .consumer
  swap
  · exact .inl ((hothers ht).mp hgone)
  obtain ⟨t, now, _, _, _⟩ := c
  change t = .consumer at ht
  subst ht
  rcases Program.step_at () hc with ⟨-, hact, hloc, hqueue⟩ | ⟨hloc, hqueue⟩ |
    ⟨hne, -, -, -, -⟩ | ⟨-, -, hloc, hqueue⟩ | ⟨-, hr, hloc, hqueue⟩ | ⟨-, hx, hloc⟩
  · -- An own step of the consumer does not end its code: a `pop` does.
    rcases hgone with hdone | hfails
    · rw [hloc, Function.update_self, not_done_of_own hact] at hdone
      cases hdone
    · exact .inl (.inr (hqueue ▸ hfails))
  · exact .inl (hqueue ▸ hloc ▸ hgone)
  · exact absurd rfl hne
  · rcases hgone with hdone | hfails
    · exact .inl (.inl (hloc ▸ hdone))
    · -- A `pop` that has just been entered has not given up.
      have hphase := phase_of_popFails hgood hfails
      rw [Program.Protocol.phase, hqueue, (H.refines ()).phases_call,
        Function.update_self] at hphase
      rename_i call
      cases call <;> cases hphase
  · rcases hgone with hdone | hfails
    · rw [hloc, Function.update_self] at hdone
      -- The return ends the code of the consumer, so that the `pop` had failed.
      refine .inl ((popFails_of_resume hdone).imp_right fun hfails => ?_)
      exact (Option.any_eq_true _ _).mpr ⟨_, hr, hfails⟩
    · rw [hqueue] at hfails
      simp only [QState.returned, QState.leave, Function.update_self] at hfails
      cases hfails
  · rcases hgone with hdone | hfails
    · exact .inl (.inl (hloc ▸ hdone))
    · obtain ⟨r, hr, hfails⟩ := (Option.any_eq_true _ _).mp hfails
      unfold popFails at hfails
      split at hfails
      · exact .inr ((leaves_iff hlaw hx).mpr ⟨_, hr⟩)
      · cases hfails

/-- **A step adds an event where a `push` passes its tests**, and nowhere else. -/
theorem owes_before (hlaw : FlagLaw Q) (hgood : Program.Good H s)
    (hc : (scenario Q config times).step c s = some s') {ev : Event}
    (howes : (s'.queue ()).Owes ev) :
    (s.queue ()).Owes ev ∨ (s.queue ()).passing (c.env s).stop c.thread = some ev := by
  rcases Program.step_at () hc with ⟨-, -, -, hqueue⟩ | ⟨-, hqueue⟩ | ⟨hne, -, -, -, -⟩ |
    ⟨hfree, -, -, hqueue⟩ | ⟨-, hr, -, hqueue⟩ | ⟨-, hx, -⟩
  · exact .inl (hqueue ▸ howes)
  · exact .inl (hqueue ▸ howes)
  · exact absurd rfl hne
  · rw [hqueue] at howes
    refine .inl ((owes_call hlaw (hgood.toFramed.frame_eq_none ?_) _).mp howes)
    rw [hfree]
    nofun
  · rw [hqueue] at howes
    exact .inl ((owes_leave hlaw hr).mp howes)
  · exact owes_or_passing (H.refines ()) hlaw (hgood.queue ()) hx howes

/-- **Once the consumer has given up, no event is owed to it**, in a run whose steps all heed the
flags. -/
theorem noneOwed (H : Program.Protocol (scenario Q config times)) (hlaw : FlagLaw Q)
    (h : (scenario Q config times).ReachableIf StopHeeded s)
    (hgone : HasGivenUp s.loc (s.queue ())) : NoneOwed times (s.queue ()) := by
  induction h with
  | refl => rcases hgone with h | h <;> cases h
  | @tail s s' hreach hstep ih =>
    obtain ⟨c, hok, hc⟩ := hstep
    have hgood : Program.Good H s := Program.good_of_reachableIf hreach
    have hgood' : Program.Good H s' := hgood.step (Program.ReachableIf.reachable hreach) hc
    intro ev hev
    rcases hasGivenUp_or_leaves hlaw hgood' hc hgone with hbefore | hleaves
    · rcases owes_before hlaw hgood hc hev with howes | hpassing
      · exact ih hbefore ev howes
      · exact hok.2 ev hpassing hbefore
    · rcases owes_before hlaw hgood hc hev with howes | hpassing
      · exact hok.1 hleaves ev howes
      · -- The step is one of a `pop`.
        obtain ⟨pc, hf, -⟩ := leaves_eq_true_iff.mp hleaves
        obtain ⟨policy, pc', hf', -⟩ := passing_eq_some_iff.mp hpassing
        rw [hf] at hf'
        cases hf'

/-- A consumer that has given up takes no step but to its end. -/
theorem HasGivenUp.returns (hgone : HasGivenUp s.loc (s.queue ())) (hgood : Program.Good H s)
    (hc : (scenario Q config times).step c s = some s') (ht : c.thread = .consumer) :
    ∃ out, s.loc .consumer = ConsumerLoc.pop ∧
      s' = s.return .consumer () (.popped false out) := by
  obtain ⟨t, now, _, _, _⟩ := c
  change t = .consumer at ht
  subst ht
  rcases hgone with hdone | hfails
  · have hdone : s.loc .consumer = ConsumerLoc.done := consumer_isDone hdone
    rcases Program.step_cases hc with ⟨g, l, -, hact, -⟩ | ⟨q, call, -, hact, -⟩ |
      ⟨q, r, hcalling, -, -⟩ | ⟨q, x, hcalling, -, -⟩
    · change actConsumer times now s.glob (s.loc .consumer) = _ at hact
      rw [hdone] at hact
      cases hact
    · change actConsumer times now s.glob (s.loc .consumer) = _ at hact
      rw [hdone] at hact
      cases hact
    all_goals
      -- A consumer that is done is in no operation.
      obtain ⟨f, -, hissued⟩ := hgood.toFramed.issues hcalling
      rw [hdone] at hissued
      cases (issues_consumer hissued).1
  · obtain ⟨r, hr, hfails⟩ := (Option.any_eq_true _ _).mp hfails
    obtain ⟨f, hf, -⟩ := returned_eq_some hr
    obtain ⟨hcalling, hissued⟩ := hgood.issued _ () f hf
    have hstep := Program.step_of_returned hc hcalling hr
    unfold popFails at hfails
    split at hfails
    · exact ⟨_, (issues_consumer hissued).1, hstep⟩
    · cases hfails

/-- A consumer that has given up does not go back, and what is in the queue stays there. -/
theorem HasGivenUp.step (hgone : HasGivenUp s.loc (s.queue ())) (hgood : Program.Good H s)
    (hc : (scenario Q config times).step c s = some s') :
    HasGivenUp s'.loc (s'.queue ()) ∧
      Q.content (s.queue ()).shared <+: Q.content (s'.queue ()).shared := by
  by_cases ht : c.thread = .consumer
  · -- The consumer returns from its failed `pop` and ends.
    obtain ⟨out, hloc, rfl⟩ := hgone.returns hgood hc ht
    refine ⟨.inl ?_, ?_⟩
    · simp only [Program.State.return, Function.update_self, hloc]
      rfl
    · simp only [Program.State.return, Function.update_self]
      exact List.prefix_refl _
  · refine ⟨(hasGivenUp_iff_of_ne hc ht).mpr hgone, ?_⟩
    rcases Program.step_at () hc with ⟨-, -, -, hqueue⟩ | ⟨-, hqueue⟩ | ⟨hne, -, -, -, -⟩ |
      ⟨-, -, -, hqueue⟩ | ⟨-, -, -, hqueue⟩ | ⟨-, hx, -⟩
    · rw [hqueue]
    · rw [hqueue]
    · exact absurd rfl hne
    · rw [hqueue]
      exact List.prefix_refl _
    · rw [hqueue]
      exact List.prefix_refl _
    · -- The others push or close, and neither takes anything out.
      obtain ⟨p', f, hf, -, hmove, -⟩ := hgood.exists_move hx
      have htyped := (hgood.queue ()).typed _ f hf
      rw [← phases_eq _ hf] at htyped
      have hcontent : ∀ s : (scenario Q config times).State,
          Q.content (s.queue ()).shared = (H.store s ()).stored := fun _ => (H.refines ()).content _
      rw [hcontent s, hcontent s']
      refine hmove.grows htyped fun hpop => ht ?_
      have hissued := (hgood.issued _ () f hf).2
      rw [Call.eq_pop_of_operation hpop] at hissued
      exact eq_consumer_of_pop hissued

/-- A `pop` that leaves is one of the consumer, which has given up then. -/
theorem hasGivenUp_of_leaves (hlaw : FlagLaw Q) (hgood : Program.Good H s)
    (hc : (scenario Q config times).step c s = some s')
    (hleaves : (s.queue ()).leaves (c.env s).stop c.thread = true) :
    HasGivenUp s'.loc (s'.queue ()) ∧
      Q.content (s'.queue ()).shared = Q.content (s.queue ()).shared := by
  obtain ⟨pc, hf, hres⟩ := pop_of_leaves hlaw hleaves
  have hx := hgood.toFramed.inside hc hf hres
  have ht : c.thread = .consumer := eq_consumer_of_pop (hgood.issued _ () _ hf).2
  obtain ⟨out, hret⟩ := (leaves_iff hlaw hx).mp hleaves
  rw [ht] at hret
  exact ⟨.inr ((Option.any_eq_true _ _).mpr ⟨_, hret, rfl⟩),
    content_of_leaves (H.refines ()) hlaw (hgood.queue ()) hx hleaves⟩

/-- An event that is owed stays owed until a `pop` takes it. -/
theorem owes_after (hlaw : FlagLaw Q) (hgood : Program.Good H s)
    (hc : (scenario Q config times).step c s = some s') {ev : Event}
    (hgrows : Q.content (s.queue ()).shared <+: Q.content (s'.queue ()).shared)
    (howes : (s.queue ()).Owes ev) : (s'.queue ()).Owes ev := by
  rcases Program.step_at () hc with ⟨-, -, -, hqueue⟩ | ⟨-, hqueue⟩ | ⟨hne, -, -, -, -⟩ |
    ⟨hfree, -, -, hqueue⟩ | ⟨-, hr, -, hqueue⟩ | ⟨-, hx, -⟩
  · exact hqueue ▸ howes
  · exact hqueue ▸ howes
  · exact absurd rfl hne
  · rw [hqueue]
    refine (owes_call hlaw (hgood.toFramed.frame_eq_none ?_) _).mpr howes
    rw [hfree]
    nofun
  · rw [hqueue]
    exact (owes_leave hlaw hr).mpr howes
  · exact Owes.of_step (H.refines ()) hlaw (hgood.queue ()) hx hgrows howes

/-- A `push` that passes its tests owes its event. -/
theorem owes_of_passing (hlaw : FlagLaw Q) (hgood : Program.Good H s)
    (hc : (scenario Q config times).step c s = some s') {ev : Event}
    (hpassing : (s.queue ()).passing (c.env s).stop c.thread = some ev) :
    (s'.queue ()).Owes ev := by
  obtain ⟨policy, pc, hf, hres⟩ := push_of_passing hlaw hpassing
  exact owes_of_committed (H.refines ()) hlaw (hgood.queue ())
    (hgood.toFramed.inside hc hf hres) (.inr hpassing)

/-- Conversely, a step that does not heed the flags leaves an event behind for good. -/
theorem reachableIf_of_noneOwed (H : Program.Protocol (scenario Q config times))
    (hlaw : FlagLaw Q) (h : (scenario Q config times).Reachable s)
    (hleft : HasGivenUp s.loc (s.queue ()) → NoneOwed times (s.queue ())) :
    (scenario Q config times).ReachableIf StopHeeded s := by
  induction h with
  | refl => exact .refl
  | @tail s s' hreach hstep ih =>
    obtain ⟨c, -, hc⟩ := hstep
    have hgood : Program.Good H s := Program.good_of_reachableIf hreach
    refine (ih ?_).tail ⟨c, ⟨fun hleaves ev hev => ?_, fun ev hpassing hgone => ?_⟩, hc⟩
    · intro hgone ev hev
      obtain ⟨hgone', hgrows⟩ := hgone.step hgood hc
      exact hleft hgone' ev (owes_after hlaw hgood hc hgrows hev)
    · obtain ⟨hgone', hsame⟩ := hasGivenUp_of_leaves hlaw hgood hc hleaves
      exact hleft hgone' ev (owes_after hlaw hgood hc (by rw [hsame]) hev)
    · exact hleft (hgone.step hgood hc).1 ev (owes_of_passing hlaw hgood hc hpassing)

/-- Nobody is in an operation when the main thread is done. -/
theorem quiet_of_done (h : (scenario Q config times).Reachable s)
    (hmain : s.loc .main = MainLoc.done) : (s.queue ()).Quiet := by
  have hjoined := joined h
  rw [hmain] at hjoined
  intro t f hf
  have hissued := ((Program.framed_of_reachableIf h).issued t () f hf).2
  rcases t with i | _ | _
  · rw [hjoined.producer i trivial] at hissued
    obtain ⟨v, ev, hl, -⟩ := issues_producer hissued
    cases hl
  · rw [hjoined.consumer trivial] at hissued
    cases (issues_consumer hissued).1
  · rw [hmain] at hissued
    cases (issues_main hissued).1

theorem sum_worth (events : List Event) :
    (events.map (worth times)).sum = events.countP (isMeasuredEvent times) := by
  induction events with
  | nil => rfl
  | cons ev events ih =>
    rw [List.map_cons, List.sum_cons, ih, List.countP_cons, worth]
    split_ifs <;> push_cast <;> omega

/-- What was pushed and not popped is left in the queue when the main thread is done. -/
theorem total_eq_countP (H : Program.Protocol (scenario Q config times))
    (h : (scenario Q config times).Reachable s) (hmain : s.loc .main = MainLoc.done) :
    (flowLedger Q config times).total () (s.queue ()) =
      (Q.content (s.queue ()).shared).countP (isMeasuredEvent times) := by
  have hgood : Program.Good H s := Program.good_of_reachableIf h
  rw [Ledger.total_eq_left (fun _ => rfl)
    ((H.refines ()).flow_of_quiet (hgood.queue ()) (quiet_of_done h hmain))]
  exact sum_worth _

/-- **The counts of a run that returns** differ by the measured events that are left in the queue,
since nothing is pending. -/
theorem counts_of_done (H : Program.Protocol (scenario Q config times))
    (h : (scenario Q config times).Reachable s) (hmain : s.loc .main = MainLoc.done) :
    flow s.glob = (Q.content (s.queue ()).shared).countP (isMeasuredEvent times) ∧
      sampled s.glob = 0 := by
  have hjoined := joined h
  rw [hmain] at hjoined
  have htotal : (sampleLedger Q config times).total () (s.queue ()) = 0 := by
    simp [Ledger.total, sampleLedger]
  have hpending : ∀ t, (flowLedger Q config times).pending t (s.loc t) = 0 ∧
      (sampleLedger Q config times).pending t (s.loc t) = 0 := by
    rintro (i | _ | _)
    · rw [hjoined.producer i trivial]
      exact ⟨rfl, rfl⟩
    · rw [hjoined.consumer trivial]
      exact ⟨rfl, rfl⟩
    · exact ⟨rfl, rfl⟩
  obtain ⟨hbalanced, hbalanced'⟩ := balanced H h
  rw [Ledger.Balanced, Finset.sum_eq_zero fun t _ => (hpending t).1, add_zero,
    Fintype.sum_unique] at hbalanced
  rw [Ledger.Balanced, Finset.sum_eq_zero fun t _ => (hpending t).2, add_zero,
    Fintype.sum_unique] at hbalanced'
  exact ⟨hbalanced.trans (total_eq_countP H h hmain), hbalanced'.trans htotal⟩

end Scenario

open Scenario

variable {config : ScenarioConfig} {max_size : ℕ} {times : Times}
  {Q : IEventQueue (Thread config.threads)}

/-- What a configuration that is run has passed. -/
theorem runScenario_eq_ok (h : runScenario max_size config = .ok Q) :
    ∃ queue_kind, config.Valid queue_kind ∧
      makeQueue _ max_size queue_kind config.capacity { wait_strategy := config.wait_strategy } =
        .ok Q := by
  unfold runScenario at h
  split at h
  · cases h
  · rename_i queue_kind hkind
    split at h
    · cases h
    · rename_i hvalid
      exact ⟨queue_kind, validateScenarioConfig_eq_ok_iff.mp hvalid, h⟩

/-- The queue of a scenario follows the permit protocol. -/
theorem runScenario_protocol (h : runScenario max_size config = .ok Q) :
    Nonempty (Program.Protocol (scenario Q config times)) := by
  obtain ⟨queue_kind, hvalid, hQ⟩ := runScenario_eq_ok h
  have hspsc : queue_kind = .spscRing → config.threads = 1 := by
    intro hkind
    rw [ScenarioConfig.threads, (hvalid.spsc hkind).1]
    rfl
  obtain ⟨bound, A, hR⟩ := makeQueue_follows _ _ hQ
  exact ⟨fun _ => bound, fun _ => A, _, fun _ => hR, fun _ hissued => disciplined hspsc hissued⟩

/-- Who has ended holds no event, so that what is owed is what is in the queue. -/
theorem noneOwed_iff_of_quiet {x : QState Q} (h : x.Quiet) : NoneOwed times x ↔
    (Q.content x.shared).countP (isMeasuredEvent times) = 0 := by
  rw [noneOwed_iff, List.countP_eq_zero]
  refine ⟨fun hnone ev hev => by simp [hnone.1 ev hev], fun hzero => ⟨fun ev hev => ?_, ?_⟩⟩
  · simpa using hzero ev hev
  · intro t ev hev
    obtain ⟨policy, pc, hf, -⟩ := storing_eq_some_iff.mp hev
    obtain ⟨done, hclose⟩ := h t _ hf
    cases hclose

/-- **Conservation in the harness.** A run that returns has one sample for each consumed event; it
has consumed every measured event that it has produced if and only if the flags were heeded in every
step. -/
theorem produced_eq_consumed_iff (h : runScenario max_size config = .ok Q)
    {s : (scenario Q config times).State} (hreach : (scenario Q config times).Reachable s)
    (hmain : s.loc .main = MainLoc.done) :
    let r := scenarioResult config s
    r.samples = r.consumed ∧
      (r.produced = r.consumed ↔ (scenario Q config times).ReachableIf StopHeeded s) := by
  obtain ⟨H⟩ : Nonempty (Program.Protocol (scenario Q config times)) := runScenario_protocol h
  obtain ⟨hflow, hsampled⟩ := counts_of_done H hreach hmain
  have hflow : ((scenarioResult config s).produced : ℤ) - (scenarioResult config s).consumed =
    (Q.content (s.queue ()).shared).countP (isMeasuredEvent times) := hflow
  have hsampled :
      ((scenarioResult config s).samples : ℤ) - (scenarioResult config s).consumed = 0 := hsampled
  -- The main thread has joined the consumer.
  have hgone : HasGivenUp s.loc (s.queue ()) := by
    have hjoined := joined hreach
    rw [hmain] at hjoined
    exact .inl (by rw [hjoined.consumer trivial]; rfl)
  obtain ⟨queue_kind, -, hQ⟩ := runScenario_eq_ok h
  have hlaw : FlagLaw Q := makeQueue_flagLaw hQ
  have hcount : NoneOwed times (s.queue ()) ↔
      (Q.content (s.queue ()).shared).countP (isMeasuredEvent times) = 0 :=
    noneOwed_iff_of_quiet (quiet_of_done hreach hmain)
  refine ⟨by omega, fun heq => ?_, fun hheeded => ?_⟩
  · refine reachableIf_of_noneOwed H hlaw hreach fun _ => hcount.mpr ?_
    omega
  · have hzero := hcount.mp (noneOwed H hlaw hheeded hgone)
    omega

/-- The base configuration of the scenario tests: one producer, a second, capacity 128. -/
def testConfig (queue_type : String) (policy : BackpressurePolicy) : ScenarioConfig :=
  { duration := 1, capacity := 128, rate_per_producer := 1000, queue_type, policy }

/-- The consumer takes `look` steps and the producer `store` steps; the main thread sets the flag;
the consumer takes `find` steps and the producer `rest` steps, after which both have ended; the main
thread closes the queue and joins them. -/
def oneEventScenario (Q : IEventQueue (Thread 1)) (config : ScenarioConfig)
    (look store find rest : ℕ) : List (scenario Q config (config.times 0)).Choice :=
  List.replicate look { thread := .consumer, input := (0 : ℤ) } ++
    List.replicate store { thread := .producer 0, input := (0 : ℤ), addr := 1 } ++
    List.replicate 2 { thread := .main, input := (1000000000 : ℤ) } ++
    List.replicate find { thread := .consumer, input := (1000000000 : ℤ) } ++
    List.replicate rest { thread := .producer 0, input := (1000000000 : ℤ), addr := 1 } ++
    List.replicate 6 { thread := .main, input := (1000000000 : ℤ) }

/-- A consumer that starts after the flag is up consumes the event. -/
theorem produced_eq_consumed_iff_one :
    let config := testConfig "spsc" .block
    ∃ Q, runScenario (2 ^ 58) config = .ok Q ∧
      ∃ s : (scenario Q config (config.times 0)).State,
        (scenario Q config (config.times 0)).ReachableIf StopHeeded s ∧ s.loc .main = MainLoc.done ∧
          let r := scenarioResult config s
          r.consumed = 1 ∧ r.produced = r.consumed ∧ r.samples = r.consumed := by
  intro config
  have hrun {Q : IEventQueue (Thread config.threads)}
      {s : (scenario Q config (config.times 0)).State} (h : runScenario (2 ^ 58) config = .ok Q)
      (hs : (scenario Q config (config.times 0)).runIf StopHeeded (.initial _)
        (oneEventScenario Q config 0 16 15 1) = some s) (hmain : s.loc .main = MainLoc.done) :=
    And.intro (Program.steps_of_runIf hs) (And.intro hmain
      (produced_eq_consumed_iff h
        (Program.ReachableIf.reachable (Program.steps_of_runIf hs)) hmain))
  obtain ⟨hreach, hmain, hsamples, hiff⟩ :=
    hrun rfl (Option.some_get (by decide +kernel)).symm rfl
  exact ⟨_, rfl, _, hreach, hmain, rfl, hiff.mpr hreach, hsamples⟩

/-- A run with the configuration returns although the consumer has missed the one event that was
produced. -/
def LosesMeasured (config : ScenarioConfig) : Prop :=
  ∃ Q, runScenario (2 ^ 58) config = .ok Q ∧
    ∃ s : (scenario Q config (config.times 0)).State,
      (scenario Q config (config.times 0)).Reachable s ∧ s.loc .main = MainLoc.done ∧
        (scenarioResult config s).produced = 1 ∧ (scenarioResult config s).consumed = 0

/-- Where the main thread stands, and what has been produced and consumed. -/
def outcome {config : ScenarioConfig} {Q : IEventQueue (Thread config.threads)}
    (s : (scenario Q config (config.times 0)).State) : MainLoc config.threads × ℕ × ℕ :=
  (s.loc .main, (scenarioResult config s).produced, (scenarioResult config s).consumed)

theorem losesMeasured_of_run {config : ScenarioConfig} {Q : IEventQueue (Thread config.threads)}
    (hQ : runScenario (2 ^ 58) config = .ok Q)
    (cs : List (scenario Q config (config.times 0)).Choice)
    (hrun : ((scenario Q config (config.times 0)).runIf (fun _ _ => True) (.initial _) cs).map
      outcome = some (.done, 1, 0)) : LosesMeasured config := by
  obtain ⟨s, hs, heq⟩ := Option.map_eq_some_iff.mp hrun
  exact ⟨Q, hQ, s, Program.reachable_of_run cs hs, congrArg Prod.fst heq,
    congrArg (fun r => r.2.1) heq, congrArg (fun r => r.2.2) heq⟩

/-- **A measured event is lost**, with configurations of the tests.  A consumer that has found the
queue empty finds the flag set, although an event has been stored in between; and a push that has
passed the test of the flag stores its event after the consumer has left. -/
theorem measured_event_lost : LosesMeasured (testConfig "spsc" .block) ∧
    LosesMeasured (testConfig "twolock" .block) ∧ LosesMeasured (testConfig "mutex" .drop) := by
  refine ⟨?_, ?_, ?_⟩
  · exact losesMeasured_of_run rfl (oneEventScenario _ _ 3 15 3 1) (by decide +kernel)
  · exact losesMeasured_of_run rfl (oneEventScenario _ _ 2 19 3 1) (by decide +kernel)
  · exact losesMeasured_of_run rfl (oneEventScenario _ _ 0 5 4 6) (by decide +kernel)

end Laboratory.QueueLatency
