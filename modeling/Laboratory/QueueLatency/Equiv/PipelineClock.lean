import Laboratory.QueueLatency.Equiv.EventIds

/-!
# The clock of a run

`Clocked` are the runs whose clock never goes back.

* `rate_limit`: an ingress thread makes no event before it is due, so by any time it has made no
  more events than the rate allows, and a run generates no more than it has time for.
* `latencies`: a worker records one latency for each measured event that it processes, in their
  order; none is negative, and the readings that they are taken from never go back.

An ingress thread that was held up makes the events that have become due one after the other: their
times of creation may be closer together than the interval, and `Scheduled` says only that none of
them is early.
-/

namespace Laboratory.QueueLatency

open Algorithm (binary64 FloatFormat)
open Concurrency

namespace Pipeline

variable {P W : ℕ} [NeZero W] {S : Pipeline P W} {config : PipelineConfig} {global_start : ℤ}
  {s s' : (S.program config (config.times global_start)).State} {x : History P W} {now now' : ℤ}

/-- What the clock reads in a step. -/
def reading {times : Times} (c : (S.program config times).Choice) : ℤ := c.input

variable (S config global_start) in
/-- **The runs whose clock never goes back**: with the history, and the last reading. -/
inductive Clocked :
    (S.program config (config.times global_start)).State → History P W → ℤ → Prop
  | start : Clocked (.initial _) {} global_start
  | step {s s' : (S.program config (config.times global_start)).State} {x : History P W} {now : ℤ}
      {c : (S.program config (config.times global_start)).Choice} (clocked : Clocked s x now)
      (clock : now ≤ reading c)
      (h : (S.program config (config.times global_start)).step c s = some s') :
      Clocked s' (S.observe config (config.times global_start) c s x) (reading c)

theorem Clocked.observed (h : S.Clocked config global_start s x now) :
    S.Observed config (config.times global_start) s x := by
  induction h with
  | start => exact .start
  | step _ _ hstep ih => exact ih.step hstep

variable (S config global_start) in
/-- A list of choices that can be followed, and in which no reading of the clock is earlier than the
one before, is such a run. -/
theorem clocked_of_run {s s' : (S.program config (config.times global_start)).State}
    {x x' : History P W} {now : ℤ} (cs : List (S.program config (config.times global_start)).Choice)
    (h : S.Clocked config global_start s x now)
    (hclock : List.IsChain (· ≤ ·) (now :: cs.map reading))
    (hrun : S.observeRun config (config.times global_start) s x cs = some (s', x')) :
    S.Clocked config global_start s' x' ((cs.map reading).getLastD now) := by
  induction cs generalizing s x now with
  | nil =>
    cases hrun
    exact h
  | cons c cs ih =>
    obtain ⟨s₁, hc, hrun⟩ := Option.bind_eq_some_iff.mp hrun
    rw [List.map_cons, List.isChain_cons_cons] at hclock
    rw [List.map_cons, List.getLastD_cons]
    exact ih (h.step hclock.1 hc) hclock.2 hrun

theorem Clocked.start_le (h : S.Clocked config global_start s x now) : global_start ≤ now := by
  induction h with
  | start => exact le_rfl
  | step _ hclock _ ih => exact ih.trans hclock

/-! ### The times of the events -/

/-- **What an ingress thread has made** since the run has started: the times never go back. -/
structure Timed (global_start now : ℤ) (created : List Event) : Prop where
  bounds : ∀ ev ∈ created, global_start ≤ ev.created_at ∧ ev.created_at ≤ now
  sorted : created.Pairwise fun ev ev' => ev.created_at ≤ ev'.created_at

variable {created : List Event} {l l' : IngressLoc}

omit [NeZero W] in
theorem Timed.mono (h : Timed global_start now created) (hnow : now ≤ now') :
    Timed global_start now' created :=
  ⟨fun ev hev => ⟨(h.bounds ev hev).1, (h.bounds ev hev).2.trans hnow⟩, h.sorted⟩

omit [NeZero W] in
/-- A thread that makes an event makes it now. -/
theorem Timed.makes (h : Timed global_start now created) (hstart : global_start ≤ now) (k : Fin P)
    (l : IngressLoc) (r : Option Return) :
    Timed global_start now (created ++ S.makes k now l r) := by
  obtain ⟨hmakes, hpairwise⟩ : (∀ ev ∈ S.makes k now l r, ev.created_at = now) ∧
      (S.makes k now l r).Pairwise fun ev ev' => ev.created_at ≤ ev'.created_at := by
    unfold Pipeline.makes
    split
    · exact ⟨fun ev hev => by rw [List.mem_singleton.mp hev]; rfl, List.pairwise_singleton _ _⟩
    · exact ⟨nofun, .nil⟩
  refine ⟨fun ev hev => ?_, List.pairwise_append.mpr ⟨h.sorted, hpairwise, fun a ha b hb => ?_⟩⟩
  · rcases List.mem_append.mp hev with hold | hnew
    · exact h.bounds ev hold
    · rw [hmakes ev hnew]
      exact ⟨hstart, le_rfl⟩
  · rw [hmakes b hb]
    exact (h.bounds a ha).2

/-- **In every run whose clock never goes back** the events are made in the order of their times. -/
theorem timed (h : S.Clocked config global_start s x now) (k : Fin P) :
    Timed global_start now (x.created k) := by
  induction h with
  | start => exact ⟨nofun, .nil⟩
  | @step s s' x now c hclocked hclock hstep ih =>
    have hstart := hclocked.start_le.trans hclock
    obtain ⟨t, now', spurious, wake, addr⟩ := c
    have ih := ih.mono hclock
    rcases t with j | _ | j | _
    · by_cases hj : j = k
      · subst hj
        change Timed global_start _ (Function.update x.created j _ j)
        rw [Function.update_self]
        exact ih.makes hstart j _ _
      · change Timed global_start _ (Function.update x.created j _ k)
        rwa [Function.update_of_ne (Ne.symm hj)]
    · exact ih
    · exact ih
    · exact ih

/-! ### The schedule -/

/-- When the thread may make its next event. -/
def IngressLoc.next_fire : IngressLoc → Option ℤ
  | .testStop v | .readClock v | .makeEvent v | .countGenerated v _ | .push v _ _
  | .countAccepted v | .countDropped v => some v.next_fire
  | .start | .done => none

/-- The thread has found an event to be due, and not made it yet. -/
def IngressLoc.isFiring : IngressLoc → Bool
  | .makeEvent _ => true
  | _ => false

/-- **The times fit into 64 bits**: the nanoseconds between two events as they are computed, and the
time that is one interval after `now`. -/
structure InInt64 (config : PipelineConfig) (global_start now : ℤ) : Prop where
  start : -2 ^ 63 ≤ global_start
  interval : config.rate_limited = true →
    binary64.round (binary64.round (1 / config.rate_per_ingress) * 1000000000) < 2 ^ 63
  next : now + config.interval < 2 ^ 63

/-- An interval that fits is what is computed, without what is after the point. -/
theorem fireInterval_eq {rate : ℚ} (hrate : 0 < rate)
    (h : binary64.round (binary64.round (1 / rate) * 1000000000) < 2 ^ 63) :
    fireInterval rate = ⌊binary64.round (binary64.round (1 / rate) * 1000000000)⌋ := by
  have hnonneg : 0 ≤ binary64.round (binary64.round (1 / rate) * 1000000000) :=
    FloatFormat.round_nonneg (mul_nonneg (FloatFormat.round_nonneg (by positivity)) (by norm_num))
  have hfloor := Int.floor_nonneg.mpr hnonneg
  have hlt : ⌊binary64.round (binary64.round (1 / rate) * 1000000000)⌋ < 2 ^ 63 :=
    Int.floor_lt.mpr (by exact_mod_cast h)
  rw [fireInterval, toInt64, if_pos hnonneg, if_pos ⟨by omega, hlt⟩]

/-- Up to two nanoseconds, and a part of them that is small, the interval is what the rate says. -/
theorem abs_fireInterval_sub_le {rate : ℚ} (hrate : 0 < rate)
    (h : binary64.round (binary64.round (1 / rate) * 1000000000) < 2 ^ 63) :
    |fireInterval rate - 1000000000 / rate| ≤ 2 + 1000000000 / rate / 2 ^ 51 := by
  have hpos : 0 < 1 / rate := by positivity
  have hround := FloatFormat.round_nonneg (F := binary64) hpos.le
  have hseconds : |binary64.round (1 / rate) - 1 / rate| ≤
      1 / rate / 2 ^ 53 + 2 ^ binary64.least / 2 := by
    refine (FloatFormat.abs_round_sub_le_div (1 / rate)).trans_eq ?_
    rw [abs_of_pos hpos]
    rfl
  have hnanos : |binary64.round (binary64.round (1 / rate) * 1000000000) -
      binary64.round (1 / rate) * 1000000000| ≤
      binary64.round (1 / rate) * 1000000000 / 2 ^ 53 + 2 ^ binary64.least / 2 := by
    refine (FloatFormat.abs_round_sub_le_div (binary64.round (1 / rate) * 1000000000)).trans_eq ?_
    rw [abs_of_nonneg (mul_nonneg hround (by norm_num))]
    rfl
  have hleast : (2 : ℚ) ^ binary64.least / 2 ≤ 2 ^ (-40 : ℤ) :=
    (div_le_self (by positivity) one_le_two).trans
      (zpow_le_zpow_right₀ one_le_two (by decide))
  have hforty : (2 : ℚ) ^ (-40 : ℤ) = 1 / 2 ^ 40 := by norm_num
  have hlow := Int.floor_le (binary64.round (binary64.round (1 / rate) * 1000000000))
  have hhigh := Int.lt_floor_add_one (binary64.round (binary64.round (1 / rate) * 1000000000))
  rw [fireInterval_eq hrate h, ← mul_one_div 1000000000 rate]
  generalize (2 : ℚ) ^ binary64.least / 2 = d at *
  generalize binary64.round (binary64.round (1 / rate) * 1000000000) = r at *
  generalize binary64.round (1 / rate) = t at *
  generalize 1 / rate = a at *
  rw [hforty] at hleast
  rw [abs_le] at hseconds hnanos ⊢
  constructor <;> linarith

-- In exact arithmetic the interval of this rate is one nanosecond longer.
example : fireInterval (binary64.round (20703933747412008 / 10000000000)) = 482 := by
  decide +kernel

theorem InInt64.interval_nonneg (h : InInt64 config global_start now) : 0 ≤ config.interval := by
  rw [PipelineConfig.interval]
  split_ifs with hrate
  · have hpos : 0 < config.rate_per_ingress := of_decide_eq_true hrate
    rw [fireInterval_eq hpos (h.interval hrate)]
    refine Int.floor_nonneg.mpr (FloatFormat.round_nonneg ?_)
    exact mul_nonneg (FloatFormat.round_nonneg (by positivity)) (by norm_num)
  · exact le_rfl

theorem InInt64.mono (h : InInt64 config global_start now') (hnow : now ≤ now') :
    InInt64 config global_start now :=
  { h with next := (Int.add_le_add_right hnow _).trans_lt h.next }

/-- **The schedule** of an ingress thread that has read `first` from the clock when it started: its
`i`-th event is due `i` intervals later, and not made before. -/
structure Scheduled (config : PipelineConfig) (global_start first now : ℤ) (created : List Event)
    (l : IngressLoc) : Prop where
  start : global_start ≤ first
  started : first ≤ now
  none_made : l = .start → created = []
  next : ∀ t, l.next_fire = some t →
    t = first + (created.length + if l.isFiring then 1 else 0) * config.interval
  firing : l.isFiring = true → first + created.length * config.interval ≤ now ∧
    first + created.length * config.interval < (config.times global_start).measure_end
  due : ∀ (i : ℕ) ev, created[i]? = some ev → first + i * config.interval ≤ ev.created_at ∧
    first + i * config.interval < (config.times global_start).measure_end

variable {first : ℤ}

theorem Scheduled.mono (h : Scheduled config global_start first now created l)
    (hnow : now ≤ now') : Scheduled config global_start first now' created l :=
  { h with
    started := h.started.trans hnow
    firing := fun hl => ⟨(h.firing hl).1.trans hnow, (h.firing hl).2⟩ }

/-- The thread moves on, and no event has become due. -/
theorem Scheduled.keep (h : Scheduled config global_start first now created l)
    (hfiring : l.isFiring = false) (hstart : l' ≠ .start) (hfiring' : l'.isFiring = false)
    (hnext : ∀ t, l'.next_fire = some t → l.next_fire = some t) :
    Scheduled config global_start first now created l' :=
  { h with
    none_made := fun hl => absurd hl hstart
    next := fun t ht => by
      have := h.next t (hnext t ht)
      rwa [hfiring, ← hfiring'] at this
    firing := fun hl => by
      rw [hfiring'] at hl
      cases hl }

/-- The thread starts when the clock reads `now`. -/
theorem Scheduled.begin (hnow : global_start ≤ now) :
    Scheduled config global_start now now [] (.testStop { next_fire := now, seq := 0 }) where
  start := hnow
  started := le_rfl
  none_made := fun _ => rfl
  next := fun t ht => by
    cases ht
    simp [IngressLoc.isFiring]
  firing := nofun
  due := nofun

/-- A time in 64 bits is kept as it is. -/
theorem wrapInt64_eq {t : ℤ} (hlow : -2 ^ 63 ≤ t) (hhigh : t < 2 ^ 63) : wrapInt64 t = t := by
  rw [wrapInt64]
  omega

/-- The thread finds an event to be due. -/
theorem Scheduled.fire {v v' : Ingress} (hfits : InInt64 config global_start now)
    (h : Scheduled config global_start first now created (.readClock v))
    (hdue : config.rate_limited = true → v.next_fire ≤ now)
    (hend : now < (config.times global_start).measure_end)
    (hv' : v'.next_fire =
      if config.rate_limited then wrapInt64 (v.next_fire + config.interval) else v.next_fire) :
    Scheduled config global_start first now created (.makeEvent v') := by
  have hinterval := hfits.interval_nonneg
  have hnext : v.next_fire = first + created.length * config.interval := by
    simpa [IngressLoc.isFiring] using h.next v.next_fire rfl
  have hle : v.next_fire ≤ now := by
    by_cases hrate : config.rate_limited = true
    · exact hdue hrate
    · -- Without a rate the next event is always due.
      have hzero : config.interval = 0 := if_neg hrate
      rw [hnext, hzero, mul_zero, add_zero]
      exact h.started
  have hv' : v'.next_fire = v.next_fire + config.interval := by
    split_ifs at hv' with hrate
    · -- It is later than the start, and one interval later than now at most.
      have := hfits.start
      have := hfits.next
      have := h.start
      have : 0 ≤ created.length * config.interval := mul_nonneg (Int.natCast_nonneg _) hinterval
      rw [hv', wrapInt64_eq (by omega) (by omega)]
    · rw [hv', PipelineConfig.interval, if_neg hrate, add_zero]
  refine { h with none_made := nofun, next := fun t ht => ?_, firing := fun _ => ?_ }
  · cases ht
    rw [hv', hnext, IngressLoc.isFiring, if_pos rfl]
    ring
  · rw [← hnext]
    exact ⟨hle, by omega⟩

/-- The thread makes the event that is due. -/
theorem Scheduled.concat {v : Ingress} {ev : Event}
    (h : Scheduled config global_start first now created (.makeEvent v))
    (hev : ev.created_at = now) (hfiring : l'.isFiring = false) (hstart : l' ≠ .start)
    (hnext : l'.next_fire = some v.next_fire) :
    Scheduled config global_start first now (created ++ [ev]) l' where
  start := h.start
  started := h.started
  none_made := fun hl => absurd hl hstart
  next := fun t ht => by
    rw [hnext, Option.some_inj] at ht
    subst ht
    have := h.next v.next_fire rfl
    rw [IngressLoc.isFiring, if_pos rfl] at this
    rw [this, hfiring, List.length_append, List.length_singleton]
    push_cast
    simp
  firing := fun hl => by
    rw [hfiring] at hl
    cases hl
  due := fun i ev' hi => by
    by_cases hlt : i < created.length
    · rw [List.getElem?_append_left hlt] at hi
      exact h.due i ev' hi
    · rw [List.getElem?_append_right (by omega), List.getElem?_singleton] at hi
      split_ifs at hi with hzero
      have hlen : i = created.length := by omega
      cases hi
      rw [hev, hlen]
      exact h.firing rfl

omit [NeZero W] in
/-- What an ingress thread has seen on the clock when it goes on to make an event. -/
theorem actIngress_fire {times : Times} {k : Fin P} {g g' : PipelineState W} {v v' : Ingress}
    (h : S.actIngress config times now k g (.readClock v) = some (.own g' (.makeEvent v'))) :
    now < times.measure_end ∧ v'.next_fire =
      (if config.rate_limited then wrapInt64 (v.next_fire + config.interval) else v.next_fire) ∧
      (config.rate_limited = true → v.next_fire ≤ now) := by
  simp only [actIngress] at h
  split_ifs at h with hend hrate hearly <;> cases h
  · exact ⟨not_le.mp hend, (if_pos hrate).symm, fun _ => not_lt.mp hearly⟩
  · exact ⟨not_le.mp hend, (if_neg hrate).symm, fun hlimited => absurd hlimited hrate⟩

omit [NeZero W] in
/-- An own step of an ingress thread, at the reading `now`. -/
theorem Scheduled.own {k : Fin P} {g g' : PipelineState W} (hfits : InInt64 config global_start now)
    (h : Scheduled config global_start first now created l)
    (hact : S.actIngress config (config.times global_start) now k g l = some (.own g' l')) :
    ∃ first', Scheduled config global_start first' now (created ++ S.makes k now l none) l' := by
  have hstep := actIngress_own hact
  cases hstep with
  | measured | unmeasured => exact ⟨first, h.concat rfl rfl nofun rfl⟩
  | start =>
    have hnil : created = [] := h.none_made rfl
    subst hnil
    exact ⟨now, .begin (h.start.trans h.started)⟩
  | fire =>
    obtain ⟨hend, hnext, hdue⟩ := actIngress_fire hact
    change ∃ first', Scheduled config global_start first' now (created ++ []) _
    rw [List.append_nil]
    exact ⟨first, h.fire hfits hdue hend hnext⟩
  | stopped | expired =>
    change ∃ first', Scheduled config global_start first' now (created ++ []) _
    rw [List.append_nil]
    exact ⟨first, h.keep rfl nofun rfl nofun⟩
  | go | early | countGenerated | countAccepted | countDropped =>
    change ∃ first', Scheduled config global_start first' now (created ++ []) _
    rw [List.append_nil]
    exact ⟨first, h.keep rfl nofun rfl fun t ht => ht⟩

/-- A return from `push` changes nothing. -/
theorem Scheduled.resume {v : Ingress} {ev : Event} {measured : Bool} {r : Return}
    (h : Scheduled config global_start first now created (.push v ev measured)) :
    Scheduled config global_start first now created
      (resumeIngress config (.push v ev measured) r) := by
  cases r with
  | popped | closed => exact h
  | pushed ok =>
    cases ok with
    | true =>
      rw [resumeIngress]
      split_ifs <;> exact h.keep rfl (by rintro ⟨⟩) rfl fun t ht => ht
    | false =>
      rw [resumeIngress]
      split_ifs <;> exact h.keep rfl (by rintro ⟨⟩) rfl fun t ht => ht

theorem Scheduled.step {k : Fin P} (hfits : InInt64 config global_start now)
    (h : Scheduled config global_start first now (x.created k) (s.loc (.ingress k)))
    (hstep : Program.Flows (.ingress k) now s s') :
    ∃ first', Scheduled config global_start first' now
      (x.created k ++ S.makes k now (s.loc (.ingress k)) (s.returning (.ingress k)))
      (s'.loc (.ingress k)) := by
  cases hstep with
  | own free acts loc =>
    rw [free, loc, Function.update_self]
    exact h.own hfits acts
  | still free issues loc | store free issues loc | take free issues loc =>
    obtain ⟨v, ev, measured, hl, -, -⟩ := issues_ingress issues
    rw [loc, free]
    rw [hl] at h ⊢
    change ∃ first', Scheduled config global_start first' now (x.created k ++ []) _
    rw [List.append_nil]
    exact ⟨first, h⟩
  | back returning issues answer loc =>
    obtain ⟨v, ev, measured, hl, -, -⟩ := issues_ingress issues
    rw [loc, returning, Function.update_self]
    rw [hl] at h ⊢
    change ∃ first', Scheduled config global_start first' now (x.created k ++ []) _
    rw [List.append_nil]
    exact ⟨first, h.resume⟩

/-- **In every run whose clock never goes back** the ingress threads keep to their schedules. -/
theorem scheduled (H : Program.Protocol (S.program config (config.times global_start)))
    (h : S.Clocked config global_start s x now) (hfits : InInt64 config global_start now)
    (k : Fin P) :
    ∃ first, Scheduled config global_start first now (x.created k) (s.loc (.ingress k)) := by
  induction h with
  | start => exact ⟨global_start, le_rfl, le_rfl, fun _ => rfl, nofun, nofun, nofun⟩
  | @step s s' x now c hclocked hclock hstep ih =>
    obtain ⟨first, ih⟩ := ih (hfits.mono hclock)
    have hreach := hclocked.observed.reachable
    have hgood : Program.Good H s := Program.good_of_reachableIf hreach
    have hflows := hgood.flows (hgood.step hreach hstep) hstep
    have hother := Program.othersStay hstep
    obtain ⟨t, now', spurious, wake, addr⟩ := c
    have ih := ih.mono hclock
    have hstays (ht : t ≠ .ingress k) : s'.loc (.ingress k) = s.loc (.ingress k) :=
      (hother _ ht.symm).2.2
    rcases t with j | _ | j | _
    · by_cases hj : j = k
      · subst hj
        change ∃ first, Scheduled _ _ first _ (Function.update x.created j _ j) _
        rw [Function.update_self]
        exact ih.step hfits hflows
      · change ∃ first, Scheduled _ _ first _ (Function.update x.created j _ k) _
        rw [Function.update_of_ne (Ne.symm hj), hstays (by simpa using hj)]
        exact ⟨first, ih⟩
    · rw [hstays nofun]
      exact ⟨first, ih⟩
    · rw [hstays nofun]
      exact ⟨first, ih⟩
    · rw [hstays nofun]
      exact ⟨first, ih⟩

/-! ### The generated events -/

/-- A measured event that the thread has made and not counted. -/
def Ungenerated (S : Pipeline P W) : ∀ t, S.Loc t → ℕ
  | .ingress _, l => match (l : IngressLoc) with
    | .countGenerated _ _ => 1
    | _ => 0
  | _, _ => 0

/-- Every measured event has been counted, or is about to be. -/
def GeneratedAll (S : Pipeline P W) (times : Times) (g : PipelineState W) (loc : ∀ t, S.Loc t)
    (x : History P W) : Prop :=
  g.generated + ∑ t, S.Ungenerated t (loc t) =
    ∑ k, (x.created k).countP (isMeasuredEvent times)

variable {times : Times} {g g' : PipelineState W} {loc : ∀ t, S.Loc t}

omit [NeZero W] in
/-- An own step of an ingress thread counts a measured event, or makes one that it has to count. -/
theorem generated_ingress {k : Fin P} (h : IngressStep S times k now g l g' l') :
    g'.generated + S.Ungenerated (.ingress k) l' =
      g.generated + S.Ungenerated (.ingress k) l +
        (S.makes k now l none).countP (isMeasuredEvent times) := by
  cases h with
  | measured hm =>
    change _ = _ + _ + List.countP _ [_]
    rw [List.countP_singleton, if_pos hm]
    rfl
  | unmeasured hm =>
    change _ = _ + _ + List.countP _ [_]
    rw [List.countP_singleton, if_neg (by simp [hm])]
    rfl
  | countGenerated => rfl
  | _ => rfl

/-- The own steps of the other threads generate nothing. -/
theorem generated_own {t : Thread P W} {l' : S.Loc t} (ht : ∀ k, t ≠ .ingress k)
    (h : (S.program config times).act now t g loc = some (.own g' l')) :
    g'.generated = g.generated := by
  rcases t with k | _ | k | _
  · exact absurd rfl (ht k)
  · have hstep := actDispatcher_own h
    generalize loc .dispatcher = l₀ at hstep
    cases hstep <;> rfl
  · have hstep := actWorker_own h
    generalize loc (.worker k) = l₀ at hstep
    cases hstep <;> rfl
  · rcases actMain_own h with ⟨-, rfl⟩ | ⟨-, rfl, -⟩ <;> rfl

omit [NeZero W] in
theorem ungenerated_resume {v : Ingress} {ev : Event} {measured : Bool} {r : Return} (k : Fin P) :
    S.Ungenerated (.ingress k) (resumeIngress config (.push v ev measured) r) = 0 := by
  cases r with
  | pushed ok =>
    cases ok <;> rw [resumeIngress] <;> split_ifs <;> rfl
  | popped | closed => rfl

omit [NeZero W] in
/-- The sum over the events that have been made, after the thread `k` has made `a`. -/
theorem sum_countP (p : Event → Bool) (f : Fin P → List Event) (k : Fin P) (a : List Event) :
    ∑ j, (Function.update f k (f k ++ a) j).countP p = ∑ j, (f j).countP p + a.countP p := by
  have hsum := sum_update (fun _ (events : List Event) => events.countP p) f k (f k ++ a)
  rw [List.countP_append] at hsum
  omega

omit [NeZero W] in
/-- The ingress thread `k` goes to `l'`. -/
theorem GeneratedAll.ingress (h : GeneratedAll S times g loc x) {k : Fin P} {r : Option Return}
    (hl : loc (.ingress k) = l)
    (hstep : g'.generated + S.Ungenerated (.ingress k) l' =
      g.generated + S.Ungenerated (.ingress k) l +
        (S.makes k now l r).countP (isMeasuredEvent times)) :
    GeneratedAll S times g' (Function.update loc (.ingress k) l')
      (S.observeIngress k now l r x) := by
  unfold GeneratedAll observeIngress at *
  have hsum := sum_update S.Ungenerated loc (.ingress k) l'
  rw [hl] at hsum
  rw [sum_countP, ← h]
  omega

omit [NeZero W] in
/-- Another thread goes to `l'`. -/
theorem GeneratedAll.other (h : GeneratedAll S times g loc x) {t : Thread P W}
    (ht : ∀ k, t ≠ .ingress k) (l' : S.Loc t) (hg : g'.generated = g.generated) :
    GeneratedAll S times g' (Function.update loc t l') x := by
  have hzero : ∀ l : S.Loc t, S.Ungenerated t l = 0 := by
    intro l
    rcases t with k | _ | k | _
    · exact absurd rfl (ht k)
    all_goals rfl
  unfold GeneratedAll at *
  rw [hg, sum_update_eq S.Ungenerated loc t l' (by rw [hzero, hzero]), h]

section

variable {s s' : (S.program config times).State} {H : Program.Protocol (S.program config times)}

theorem GeneratedAll.step_ingress (h : GeneratedAll S times s.glob s.loc x) {k : Fin P}
    (hmoves : Program.Moves H (.ingress k) now s s') :
    GeneratedAll S times s'.glob s'.loc
      (S.observeIngress k now (s.loc (.ingress k)) (s.returning (.ingress k)) x) := by
  cases hmoves with
  | own free acts glob loc =>
    rw [loc, glob, free]
    exact h.ingress rfl (generated_ingress (actIngress_own acts))
  | inside free issues glob loc =>
    obtain ⟨v, ev, measured, hl, -, -⟩ := issues_ingress issues
    rw [loc, glob, free, hl]
    exact h.ingress hl rfl
  | back returning frame issues answer reports glob loc =>
    obtain ⟨v, ev, measured, hl, -, -⟩ := issues_ingress issues
    rw [loc, glob, returning, hl]
    refine h.ingress hl ?_
    change _ + S.Ungenerated (.ingress k) (resumeIngress config (.push v ev measured) _) = _
    rw [ungenerated_resume]
    rfl

theorem GeneratedAll.step_other (h : GeneratedAll S times s.glob s.loc x) {t : Thread P W}
    (ht : ∀ k, t ≠ .ingress k) (hmoves : Program.Moves H t now s s') :
    GeneratedAll S times s'.glob s'.loc x := by
  cases hmoves with
  | own free acts glob loc =>
    rw [loc, glob]
    exact h.other ht _ (generated_own ht acts)
  | inside free issues glob loc =>
    rw [loc, glob]
    exact h.other ht _ rfl
  | back returning frame issues answer reports glob loc =>
    rw [loc, glob]
    exact h.other ht _ rfl

/-- **In every run** the measured events that have been made are those that are counted as
generated, and those that an ingress thread is about to count. -/
theorem generated_all (H : Program.Protocol (S.program config times))
    (h : S.Observed config times s x) : GeneratedAll S times s.glob s.loc x := by
  induction h with
  | start =>
    have hpending : ∑ t, S.Ungenerated t ((S.program config times).start t) = 0 := by
      refine Finset.sum_eq_zero ?_
      rintro (k | _ | k | _) - <;> rfl
    have hmade : ∑ k : Fin P, (({} : History P W).created k).countP (isMeasuredEvent times) = 0 :=
      Finset.sum_eq_zero fun k _ => rfl
    unfold GeneratedAll
    rw [hmade]
    exact (Nat.zero_add _).trans hpending
  | @step s s' x c hobserved hstep ih =>
    have hgood : Program.Good H s := Program.good_of_reachableIf hobserved.reachable
    have hmoves := hgood.moves hstep
    obtain ⟨t, now, spurious, wake, addr⟩ := c
    rcases t with k | _ | k | _
    · exact ih.step_ingress hmoves
    · exact ih.step_other (by rintro _ ⟨⟩) hmoves
    · exact ih.step_other (by rintro _ ⟨⟩) hmoves
    · exact ih.step_other (by rintro _ ⟨⟩) hmoves

/-- No run generates more events than it makes. -/
theorem generated_le (H : Program.Protocol (S.program config times))
    (h : S.Observed config times s x) :
    PipelineState.generated s.glob ≤ ∑ k, (x.created k).length := by
  have hall : PipelineState.generated s.glob + ∑ t, S.Ungenerated t (s.loc t) =
    ∑ k, (x.created k).countP (isMeasuredEvent times) := generated_all H h
  have hle : ∑ k, (x.created k).countP (isMeasuredEvent times) ≤ ∑ k, (x.created k).length :=
    Finset.sum_le_sum fun k _ => List.countP_le_length
  omega

end

/-! ### How many events there is time for -/

omit [NeZero W] in
/-- Among the elements with a property, one stands at least as far back as there are of them. -/
theorem exists_of_countP {α : Type} {p : α → Bool} {as : List α} (h : 0 < as.countP p) :
    ∃ (i : ℕ) (a : α), as[i]? = some a ∧ p a = true ∧ as.countP p ≤ i + 1 := by
  induction as using List.reverseRecOn with
  | nil => cases h
  | append_singleton as a ih =>
    rw [List.countP_append, List.countP_singleton] at h ⊢
    by_cases ha : p a = true
    · refine ⟨as.length, a, by simp, ha, ?_⟩
      have := List.countP_le_length (p := p) (l := as)
      rw [if_pos ha]
      omega
    · rw [if_neg ha] at h ⊢
      obtain ⟨i, b, hi, hb, hcount⟩ := ih h
      refine ⟨i, b, ?_, hb, hcount⟩
      rw [List.getElem?_append_left (List.getElem?_eq_some_iff.mp hi).1]
      exact hi

/-- By the time `t` the thread has made no more events than have become due. -/
theorem Scheduled.countP_le (h : Scheduled config global_start first now created l)
    (hinterval : 0 ≤ config.interval) {t : ℤ} (ht : global_start ≤ t) :
    (created.countP fun ev => ev.created_at ≤ t) * config.interval ≤
      t - global_start + config.interval := by
  rcases Nat.eq_zero_or_pos (created.countP fun ev => ev.created_at ≤ t) with hzero | hpos
  · rw [hzero]
    omega
  · obtain ⟨i, ev, hi, hev, hcount⟩ := exists_of_countP hpos
    have hdue := (h.due i ev hi).1
    have hstart := h.start
    calc
      _ ≤ ((i : ℤ) + 1) * config.interval := by
        apply mul_le_mul_of_nonneg_right _ hinterval
        exact_mod_cast hcount
      _ = i * config.interval + config.interval := by ring
      _ ≤ t - global_start + config.interval := by
        have := of_decide_eq_true hev
        omega

/-- The thread makes no more events than become due before the run is over. -/
theorem Scheduled.length_lt (h : Scheduled config global_start first now created l)
    (hinterval : 0 ≤ config.interval) (hwarmup : 0 ≤ config.warmup)
    (hduration : 0 < config.duration) :
    created.length * config.interval <
      (config.warmup + config.duration) * 1000000 + config.interval := by
  cases hlast : created.getLast? with
  | none =>
    rw [List.getLast?_eq_none_iff.mp hlast, List.length_nil]
    omega
  | some ev =>
    rw [List.getLast?_eq_getElem?] at hlast
    have hpos : 0 < created.length := by
      have := (List.getElem?_eq_some_iff.mp hlast).1
      omega
    have hdue := (h.due _ ev hlast).2
    have hstart := h.start
    change _ < global_start + config.warmup * 1000000 + config.duration * 1000000 at hdue
    rw [Nat.cast_sub hpos, sub_mul] at hdue
    push_cast at hdue
    omega

/-! ### The latencies -/

/-- The latency that the worker has measured and not recorded. -/
def WorkerLoc.latency : WorkerLoc → List ℤ
  | .countCompleted latency_ns | .countOwn latency_ns | .record latency_ns => [latency_ns]
  | _ => []

/-- **What a worker has measured**, against the events that it has processed and the latencies that
it has recorded. -/
structure Logged (times : Times) (now : ℤ) (latencies_ns : List ℤ) (processed : List Event)
    (l : WorkerLoc) (measured : List (Event × ℤ)) : Prop where
  events : measured.map Prod.fst = processed.filter (isMeasuredEvent times)
  latencies : latencies_ns ++ l.latency = measured.map fun entry => entry.2 - entry.1.created_at
  sorted : measured.Pairwise fun entry entry' => entry.2 ≤ entry'.2
  bounds : ∀ entry ∈ measured, entry.1.created_at ≤ entry.2 ∧ entry.2 ≤ now

variable {latencies_ns : List ℤ} {processed : List Event} {measured : List (Event × ℤ)}

omit [NeZero W] in
theorem Logged.mono {l : WorkerLoc} (h : Logged times now latencies_ns processed l measured)
    (hnow : now ≤ now') : Logged times now' latencies_ns processed l measured :=
  { h with bounds := fun entry hentry => ⟨(h.bounds entry hentry).1,
      (h.bounds entry hentry).2.trans hnow⟩ }

omit [NeZero W] in
/-- The worker measures an event. -/
theorem Logged.concat {ev : Event}
    (h : Logged times now latencies_ns processed (.measure ev) measured)
    (hm : isMeasuredEvent times ev = true) (hev : ev.created_at ≤ now) :
    Logged times now latencies_ns (processed ++ [ev]) (.countCompleted (now - ev.created_at))
      (measured ++ [(ev, now)]) where
  events := by
    rw [List.map_append, h.events, List.filter_append, List.filter_singleton, hm]
    rfl
  latencies := by
    have hlatencies :
        latencies_ns ++ [] = measured.map fun entry => entry.2 - entry.1.created_at := h.latencies
    rw [List.map_append, ← hlatencies, List.append_nil]
    rfl
  sorted := by
    rw [List.pairwise_append]
    refine ⟨h.sorted, List.pairwise_singleton _ _, fun a ha b hb => ?_⟩
    rw [List.mem_singleton.mp hb]
    exact (h.bounds a ha).2
  bounds := fun entry hentry => by
    rcases List.mem_append.mp hentry with hold | hnew
    · exact h.bounds entry hold
    · rw [List.mem_singleton.mp hnew]
      exact ⟨hev, le_rfl⟩

omit [NeZero W] in
/-- What a worker has measured. -/
theorem actWorker_measured {k : Fin W} {ev : Event} {latency_ns : ℤ}
    (h : S.actWorker times now k g (.measure ev) = some (.own g' (.countCompleted latency_ns))) :
    latency_ns = now - ev.created_at := by
  simp only [actWorker] at h
  split_ifs at h <;> cases h
  rfl

omit [NeZero W] in
/-- An own step of a worker, at the reading `now`. -/
theorem Logged.own {k : Fin W} {l l' : WorkerLoc}
    (h : Logged times now (g.worker_metrics k).latencies_ns processed l measured)
    (hact : S.actWorker times now k g l = some (.own g' l'))
    (hmade : ∀ ev, l = .measure ev → ev.created_at ≤ now) :
    Logged times now (g'.worker_metrics k).latencies_ns (processed ++ l.processes none) l'
      (measured ++ l.measures times now none) := by
  have hstep := actWorker_own hact
  cases hstep with
  | @measured ev latency_ns hm =>
    have hmeasures : WorkerLoc.measures times now (.measure ev) none = [(ev, now)] := if_pos hm
    rw [actWorker_measured hact, hmeasures]
    exact h.concat hm (hmade _ rfl)
  | @unmeasured ev hm =>
    have hmeasures : WorkerLoc.measures times now (.measure ev) none = [] :=
      if_neg (by rw [hm]; exact Bool.false_ne_true)
    rw [hmeasures, List.append_nil]
    refine ⟨?_, h.latencies, h.sorted, h.bounds⟩
    rw [h.events]
    change _ = (processed ++ [_]).filter _
    rw [List.filter_append, List.filter_singleton, hm, Bool.cond_false, List.append_nil]
  | countCompleted =>
    change Logged times now _ (processed ++ []) _ (measured ++ [])
    rw [List.append_nil, List.append_nil]
    exact ⟨h.events, h.latencies, h.sorted, h.bounds⟩
  | countOwn =>
    change Logged times now _ (processed ++ []) _ (measured ++ [])
    rw [List.append_nil, List.append_nil]
    refine ⟨h.events, ?_, h.sorted, h.bounds⟩
    change (Function.update g.worker_metrics k _ k).latencies_ns ++ _ = _
    rw [Function.update_self]
    exact h.latencies
  | record =>
    change Logged times now _ (processed ++ []) _ (measured ++ [])
    rw [List.append_nil, List.append_nil]
    refine ⟨h.events, ?_, h.sorted, h.bounds⟩
    change (Function.update g.worker_metrics k _ k).latencies_ns ++ [] = _
    rw [Function.update_self, List.append_nil]
    exact h.latencies

section

variable {s s' : (S.program config times).State} {H : Program.Protocol (S.program config times)}

/-- The latencies that the worker `k` has recorded. -/
def recordedLatencies (s : (S.program config times).State) (k : Fin W) : List ℤ :=
  (PipelineState.worker_metrics s.glob k).latencies_ns

theorem Logged.step {k : Fin W}
    (h : Logged times now (recordedLatencies s k) (x.processed k) (s.loc (.worker k))
      (x.measured k))
    (hmoves : Program.Moves H (.worker k) now s s')
    (hmade : ∀ ev ∈ WorkerLoc.processes (s.loc (.worker k)) (s.returning (.worker k)),
      ev.created_at ≤ now) :
    Logged times now (recordedLatencies s' k)
      (x.processed k ++ WorkerLoc.processes (s.loc (.worker k)) (s.returning (.worker k)))
      (s'.loc (.worker k))
      (x.measured k ++
        WorkerLoc.measures times now (s.loc (.worker k)) (s.returning (.worker k))) := by
  cases hmoves with
  | own free acts glob loc =>
    rw [recordedLatencies, loc, glob, free, Function.update_self]
    refine h.own acts fun ev hev => hmade ev ?_
    rw [free, hev]
    exact List.mem_singleton_self ev
  | inside free issues glob loc =>
    obtain ⟨hl, -, -⟩ := issues_worker issues
    rw [recordedLatencies, loc, glob, free, Function.update_self]
    rw [hl] at h ⊢
    change Logged times now _ (x.processed k ++ []) _ (x.measured k ++ [])
    rw [List.append_nil, List.append_nil]
    exact h
  | back returning frame issues answer reports glob loc =>
    obtain ⟨hl, -, hc⟩ := issues_worker issues
    rw [hc] at answer
    rw [recordedLatencies, loc, glob, returning, Function.update_self]
    rw [hl] at h ⊢
    change Logged times now _ (x.processed k ++ []) _ (x.measured k ++ [])
    rw [List.append_nil, List.append_nil]
    rcases answer.pop with ⟨out, rfl⟩ | ⟨ev, rfl⟩
    · exact ⟨h.events, h.latencies, h.sorted, h.bounds⟩
    · exact ⟨h.events, h.latencies, h.sorted, h.bounds⟩

/-- Only the worker itself records its latencies. -/
theorem recorded_stays {c : (S.program config times).Choice} {k : Fin W}
    (h : (S.program config times).step c s = some s') (ht : c.thread ≠ .worker k) :
    recordedLatencies s' k = recordedLatencies s k := by
  rcases Program.step_cases h with ⟨g, l, -, hact, rfl⟩ | ⟨_, _, -, -, rfl⟩ |
    ⟨_, _, -, -, rfl⟩ | ⟨_, _, -, -, rfl⟩
  · exact congrArg WorkerMetrics.latencies_ns (metrics_own hact ht)
  · rfl
  · rfl
  · rfl

end

/-- An event that has been processed was made before. -/
theorem created_at_le (H : Program.Protocol (S.program config (config.times global_start)))
    (h : S.Clocked config global_start s x now) {k : Fin W} {ev : Event}
    (hev : ev ∈ x.processed k) : ev.created_at ≤ now := by
  have hsum : ev ∈ ∑ k, (x.processed k : Multiset Event) :=
    Multiset.mem_sum.mpr ⟨k, Finset.mem_univ k, hev⟩
  obtain ⟨j, -, hj⟩ := Multiset.mem_sum.mp (Multiset.mem_of_le (processed_le H h.observed) hsum)
  exact ((timed h j).bounds ev hj).2

/-- **In every run whose clock never goes back** the workers record what they have measured. -/
theorem logged (H : Program.Protocol (S.program config (config.times global_start)))
    (h : S.Clocked config global_start s x now) (k : Fin W) :
    Logged (config.times global_start) now (recordedLatencies s k) (x.processed k)
      (s.loc (.worker k)) (x.measured k) := by
  induction h with
  | start => exact ⟨rfl, rfl, .nil, nofun⟩
  | @step s s' x now c hclocked hclock hstep ih =>
    have hgood : Program.Good H s := Program.good_of_reachableIf hclocked.observed.reachable
    have hmoves := hgood.moves hstep
    have hother := Program.othersStay hstep
    have hafter : ∀ ev ∈ (S.observe config (config.times global_start) c s x).processed k,
        ev.created_at ≤ reading c :=
      fun ev hev => created_at_le H (hclocked.step hclock hstep) hev
    have hrecorded := recorded_stays (k := k) hstep
    obtain ⟨t, now', spurious, wake, addr⟩ := c
    have ih := ih.mono hclock
    have hstays (ht : t ≠ .worker k) : Logged (config.times global_start) now'
        (recordedLatencies s' k) (x.processed k) (s'.loc (.worker k)) (x.measured k) := by
      have hloc : s'.loc (.worker k) = s.loc (.worker k) := (hother _ ht.symm).2.2
      rw [hrecorded ht, hloc]
      exact ih
    rcases t with j | _ | j | _
    · exact hstays nofun
    · exact hstays nofun
    · by_cases hj : j = k
      · subst hj
        have hprocessed : (S.observe config (config.times global_start)
            { thread := .worker j, input := now', spurious, wake, addr } s x).processed j =
            x.processed j ++
              WorkerLoc.processes (s.loc (.worker j)) (s.returning (.worker j)) :=
          Function.update_self ..
        have hmeasured : (S.observe config (config.times global_start)
            { thread := .worker j, input := now', spurious, wake, addr } s x).measured j =
            x.measured j ++ WorkerLoc.measures (config.times global_start) now' (s.loc (.worker j))
              (s.returning (.worker j)) :=
          Function.update_self ..
        rw [hprocessed] at hafter ⊢
        rw [hmeasured]
        exact ih.step hmoves fun ev hev => hafter ev (List.mem_append_right _ hev)
      · change Logged _ _ _ (Function.update x.processed j _ k) _ (Function.update x.measured j _ k)
        rw [Function.update_of_ne (Ne.symm hj), Function.update_of_ne (Ne.symm hj)]
        exact hstays (by simpa using hj)
    · exact hstays nofun

end Pipeline

open Pipeline

section

variable {config : AcceptedConfig} {max_size : ℕ} {global_start now : ℤ}
  {S : Pipeline config.ingress config.workers}
  {s : (S.program config.toPipelineConfig (config.times global_start)).State}
  {x : History config.ingress config.workers}

/-- **The rate is never exceeded**, as long as the times fit into 64 bits.  The interval is what the
rate says, but for the rounding.  In every run whose clock never goes back, an ingress thread makes
its events one after the other, the `i`-th no earlier than `i` intervals after the start; by any
time `t` it has made no more of them than the rate allows; and all ingress threads together generate
no more events than there is time for in the warm-up and the measured time. -/
theorem rate_limit (h : runPipelineScenario max_size config.toPipelineConfig = .ok S)
    (hclocked : S.Clocked config.toPipelineConfig global_start s x now)
    (hfits : InInt64 config.toPipelineConfig global_start now) :
    (config.rate_limited = true →
      |(config.interval : ℚ) - 1000000000 / config.rate_per_ingress| ≤
        2 + 1000000000 / config.rate_per_ingress / 2 ^ 51) ∧
    (∀ k, (x.created k).Pairwise (fun ev ev' => ev.created_at ≤ ev'.created_at) ∧
      ∀ (i : ℕ) ev, (x.created k)[i]? = some ev →
        global_start + i * config.interval ≤ ev.created_at ∧ ev.created_at ≤ now) ∧
    (∀ k t, global_start ≤ t →
      ((x.created k).countP fun ev => ev.created_at ≤ t) * config.interval ≤
        t - global_start + config.interval) ∧
    PipelineState.generated s.glob * config.interval <
      config.ingress * ((config.warmup + config.duration) * 1000000 + config.interval) := by
  obtain ⟨H⟩ : Nonempty (Program.Protocol
      (S.program config.toPipelineConfig (config.times global_start))) :=
    runPipelineScenario_protocol h
  have hinterval := hfits.interval_nonneg
  have hscheduled := scheduled H hclocked hfits
  refine ⟨fun hrate => ?_, fun k => ?_, fun k t ht => ?_, ?_⟩
  · rw [PipelineConfig.interval, if_pos hrate]
    exact abs_fireInterval_sub_le (of_decide_eq_true hrate) (hfits.interval hrate)
  · obtain ⟨first, hk⟩ := hscheduled k
    have htimed := timed hclocked k
    refine ⟨htimed.sorted, fun i ev hi => ⟨?_, (htimed.bounds ev (List.mem_of_getElem? hi)).2⟩⟩
    have := hk.start
    have := (hk.due i ev hi).1
    omega
  · obtain ⟨first, hk⟩ := hscheduled k
    exact hk.countP_le hinterval ht
  · have hgenerated := generated_le H hclocked.observed
    have hlength : ∀ k ∈ (Finset.univ : Finset (Fin config.ingress)),
        ((x.created k).length : ℤ) * config.interval <
          (config.warmup + config.duration) * 1000000 + config.interval := by
      intro k _
      obtain ⟨first, hk⟩ := hscheduled k
      exact hk.length_lt hinterval config.valid.warmup config.valid.duration
    have hsome : (Finset.univ : Finset (Fin config.ingress)).Nonempty := by
      have := config.valid.ingress_threads
      exact ⟨⟨0, by rw [PipelineConfig.ingress]; omega⟩, Finset.mem_univ _⟩
    calc
      (PipelineState.generated s.glob : ℤ) * config.interval ≤
          ((∑ k, (x.created k).length : ℕ) : ℤ) * config.interval := by
        apply mul_le_mul_of_nonneg_right _ hinterval
        exact_mod_cast hgenerated
      _ = ∑ k, ((x.created k).length : ℤ) * config.interval := by
        rw [Nat.cast_sum, Finset.sum_mul]
      _ < ∑ _k : Fin config.ingress,
          ((config.warmup + config.duration) * 1000000 + config.interval) :=
        Finset.sum_lt_sum_of_nonempty hsome hlength
      _ = _ := by
        rw [Finset.sum_const, Finset.card_univ, Fintype.card_fin, nsmul_eq_mul]

/-- One ingress thread makes an event each millisecond, for three milliseconds. -/
def oneLimited : AcceptedConfig :=
  ⟨{ ingress_threads := 1, worker_threads := 1, duration := 3, ingress_queue_capacity := 1,
     rate_per_ingress := 1000 }, by decide⟩

/-- It makes an event, finds that half a millisecond later no other is due, and makes the next one
after a millisecond. -/
def limitedRun (S : Pipeline oneLimited.ingress oneLimited.workers) :
    List (S.program oneLimited.toPipelineConfig (oneLimited.times 0)).Choice :=
  List.replicate 18 { thread := .ingress (0 : Fin 1), input := (5 : ℤ), addr := 1 } ++
    List.replicate 2 { thread := .ingress (0 : Fin 1), input := (500000 : ℤ) } ++
    List.replicate 2 { thread := .ingress (0 : Fin 1), input := (1000005 : ℤ) } ++
    [{ thread := .ingress (0 : Fin 1), input := (1000009 : ℤ) }]

theorem rate_limit_two :
    ∃ S, runPipelineScenario (2 ^ 58) oneLimited.toPipelineConfig = .ok S ∧
      ∃ (s : (S.program oneLimited.toPipelineConfig (oneLimited.times 0)).State) (x : History 1 1)
        (now : ℤ), S.Clocked oneLimited.toPipelineConfig 0 s x now ∧
          (x.created 0).map Event.created_at = [5, 1000009] ∧ PipelineState.generated s.glob = 1 ∧
          PipelineState.generated s.glob * oneLimited.interval <
            oneLimited.ingress * ((oneLimited.warmup + oneLimited.duration) * 1000000 +
              oneLimited.interval) := by
  have hrun {S : Pipeline oneLimited.ingress oneLimited.workers}
      (h : runPipelineScenario (2 ^ 58) oneLimited.toPipelineConfig = .ok S)
      {s : (S.program oneLimited.toPipelineConfig (oneLimited.times 0)).State} {x : History 1 1}
      (hs : S.observeRun oneLimited.toPipelineConfig (oneLimited.times 0) (.initial _) {}
        (limitedRun S) = some (s, x))
      (hclock : List.IsChain (· ≤ ·) (0 :: (limitedRun S).map reading)) :
      ∃ now, S.Clocked oneLimited.toPipelineConfig 0 s x now ∧
        PipelineState.generated s.glob * oneLimited.interval <
          oneLimited.ingress * ((oneLimited.warmup + oneLimited.duration) * 1000000 +
            oneLimited.interval) := by
    have hclocked := clocked_of_run S _ 0 _ .start hclock hs
    have hfits : InInt64 oneLimited.toPipelineConfig 0 1000009 :=
      ⟨by decide, fun _ => by decide +kernel, by decide +kernel⟩
    exact ⟨_, hclocked, (rate_limit h hclocked hfits).2.2.2⟩
  obtain ⟨now, hclocked, hrate⟩ := hrun rfl (Option.some_get (by decide +kernel)).symm
    (by decide +kernel)
  exact ⟨_, rfl, _, _, now, hclocked, by decide +kernel, by decide +kernel, hrate⟩

/-- **The latencies.** In every run whose clock never goes back, a worker has taken a reading of the
clock for each of the measured events that it has processed, in their order: the readings never go
back, none is earlier than the event or later than now, and their distances from the events are the
latencies that the worker has recorded, but for one that it has still to record.  So no recorded
latency is negative, or longer than the measurement has lasted. -/
theorem latencies (h : runPipelineScenario max_size config.toPipelineConfig = .ok S)
    (hclocked : S.Clocked config.toPipelineConfig global_start s x now) (k : Fin config.workers) :
    ((x.measured k).map Prod.fst =
        (x.processed k).filter (isMeasuredEvent (config.times global_start)) ∧
      recordedLatencies s k ++ WorkerLoc.latency (s.loc (.worker k)) =
        (x.measured k).map (fun entry => entry.2 - entry.1.created_at) ∧
      (x.measured k).Pairwise (fun entry entry' => entry.2 ≤ entry'.2) ∧
      ∀ entry ∈ x.measured k, entry.1.created_at ≤ entry.2 ∧ entry.2 ≤ now) ∧
    ∀ latency_ns ∈ recordedLatencies s k, 0 ≤ latency_ns ∧
      latency_ns ≤ now - (config.times global_start).measure_start_ns := by
  obtain ⟨H⟩ : Nonempty (Program.Protocol
      (S.program config.toPipelineConfig (config.times global_start))) :=
    runPipelineScenario_protocol h
  have hlog := logged H hclocked k
  refine ⟨⟨hlog.events, hlog.latencies, hlog.sorted, hlog.bounds⟩, fun latency_ns hmem => ?_⟩
  obtain ⟨entry, hentry, rfl⟩ :
      ∃ entry ∈ x.measured k, entry.2 - entry.1.created_at = latency_ns := by
    have hmem' := List.mem_append_left (WorkerLoc.latency (s.loc (.worker k))) hmem
    rw [hlog.latencies] at hmem'
    exact List.mem_map.mp hmem'
  obtain ⟨hcreated, hnow⟩ := hlog.bounds entry hentry
  -- Measured events are made after the start of the measurement.
  have hmeasured : isMeasuredEvent (config.times global_start) entry.1 = true := by
    have := List.mem_map_of_mem (f := Prod.fst) hentry
    rw [hlog.events] at this
    exact (List.mem_filter.mp this).2
  have hstart := (of_decide_eq_true hmeasured).2
  omega

/-- The worker finds the event of a run that completes it a millisecond after it was made. -/
theorem latencies_one :
    ∃ S, runPipelineScenario (2 ^ 58) oneOfEach.toPipelineConfig = .ok S ∧
      ∃ (s : (S.program oneOfEach.toPipelineConfig (oneOfEach.times 0)).State) (x : History 1 1)
        (now : ℤ), S.Clocked oneOfEach.toPipelineConfig 0 s x now ∧
          recordedLatencies s 0 = [1000000] ∧
          ∀ latency_ns ∈ recordedLatencies s 0, 0 ≤ latency_ns := by
  have hrun {S : Pipeline oneOfEach.ingress oneOfEach.workers}
      (h : runPipelineScenario (2 ^ 58) oneOfEach.toPipelineConfig = .ok S)
      {s : (S.program oneOfEach.toPipelineConfig (oneOfEach.times 0)).State} {x : History 1 1}
      (hs : S.observeRun oneOfEach.toPipelineConfig (oneOfEach.times 0) (.initial _) {}
        (oneEventRun S 0 19) = some (s, x))
      (hclock : List.IsChain (· ≤ ·) (0 :: (oneEventRun S 0 19).map reading)) :
      ∃ now, S.Clocked oneOfEach.toPipelineConfig 0 s x now ∧
        ∀ latency_ns ∈ recordedLatencies s 0, 0 ≤ latency_ns := by
    have hclocked := clocked_of_run S _ 0 _ .start hclock hs
    exact ⟨_, hclocked, fun latency_ns hmem => ((latencies h hclocked 0).2 latency_ns hmem).1⟩
  obtain ⟨now, hclocked, hlatencies⟩ := hrun rfl (Option.some_get (by decide)).symm (by decide)
  exact ⟨_, rfl, _, _, now, hclocked, rfl, hlatencies⟩

end

end Laboratory.QueueLatency
