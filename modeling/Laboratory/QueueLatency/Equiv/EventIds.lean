import Laboratory.Algorithm.RoundRobin
import Laboratory.QueueLatency.Equiv.PipelineOrder

/-!
# The identities of the events

`ids_and_routing`: no two events of a run have the same `id`, and where `target_worker` is the
remainder of the `id`, the events of an ingress thread are spread evenly over the workers.

The reason is `Numbered`: the events that an ingress thread has made carry the numbers from 0 on,
one after the other.
-/

namespace Laboratory.QueueLatency

open Algorithm

namespace Pipeline

variable {P W : ℕ} [NeZero W] {S : Pipeline P W} {config : PipelineConfig} {times : Times}
  {s s' : (S.program config times).State} {x : History P W} {now : ℤ}

/-! ### The numbers of the events -/

/-- The number of the event that an ingress thread makes next, where its loop has begun. -/
def IngressLoc.seq : IngressLoc → Option UInt64
  | .testStop v | .readClock v | .makeEvent v | .countGenerated v _ | .push v _ _
  | .countAccepted v | .countDropped v => some v.seq
  | .start | .done => none

/-- The events that the ingress thread `k` has made when it stands at `l`. -/
structure Numbered (S : Pipeline P W) (k : Fin P) (created : List Event) (l : IngressLoc) :
    Prop where
  event : ∀ i ev, created[i]? = some ev → ∃ now, ev = S.newEvent k (UInt64.ofNat i) now
  start : l = .start → created = []
  next : ∀ seq, l.seq = some seq → seq = UInt64.ofNat created.length

omit [NeZero W] in
/-- The thread moves on without making an event. -/
theorem Numbered.keep {k : Fin P} {created : List Event} {l l' : IngressLoc}
    (h : Numbered S k created l) (hstart : l' ≠ .start)
    (hseq : ∀ seq, l'.seq = some seq → l.seq = some seq) : Numbered S k created l' :=
  ⟨h.event, fun hl => absurd hl hstart, fun seq hl => h.next seq (hseq seq hl)⟩

omit [NeZero W] in
/-- The thread makes the next event. -/
theorem Numbered.concat {k : Fin P} {created : List Event} {l l' : IngressLoc} {v : Ingress}
    (h : Numbered S k created l) (hl : l.seq = some v.seq) (now : ℤ) (hstart : l' ≠ .start)
    (hl' : l'.seq = some (v.seq + 1)) :
    Numbered S k (created ++ [S.newEvent k v.seq now]) l' := by
  have hv : v.seq = UInt64.ofNat created.length := h.next _ hl
  refine ⟨fun i ev hi => ?_, fun h => absurd h hstart, fun seq hseq => ?_⟩
  · by_cases hlt : i < created.length
    · rw [List.getElem?_append_left hlt] at hi
      exact h.event i ev hi
    · rw [List.getElem?_append_right (by omega), List.getElem?_singleton] at hi
      split_ifs at hi with hzero
      have hlen : i = created.length := by omega
      cases hi
      exact ⟨now, by rw [hv, hlen]⟩
  · rw [hl', Option.some_inj] at hseq
    rw [← hseq, hv, List.length_append, List.length_singleton, UInt64.ofNat_add]
    rfl

omit [NeZero W] in
/-- An own step of an ingress thread. -/
theorem Numbered.own {k : Fin P} {created : List Event} {g g' : PipelineState W}
    {l l' : IngressLoc} (h : Numbered S k created l) (hstep : IngressStep S times k now g l g' l') :
    Numbered S k (created ++ S.makes k now l none) l' := by
  cases hstep with
  | measured | unmeasured =>
    -- The event that is made gets the next number.
    apply h.concat rfl now
    · nofun
    · rfl
  | start =>
    have hnil : created = [] := h.start rfl
    subst hnil
    refine ⟨nofun, nofun, fun seq hseq => ?_⟩
    exact (Option.some_inj.mp hseq).symm
  | @fire v v' hseq =>
    change Numbered S k (created ++ []) _
    rw [List.append_nil]
    refine h.keep nofun fun seq hl => ?_
    rw [← hl]
    exact congrArg some hseq.symm
  | stopped | expired =>
    change Numbered S k (created ++ []) _
    rw [List.append_nil]
    exact h.keep nofun nofun
  | go | early | countGenerated | countAccepted | countDropped =>
    change Numbered S k (created ++ []) _
    rw [List.append_nil]
    exact h.keep nofun fun seq hl => hl

omit [NeZero W] in
/-- An ingress thread returns from `push`. -/
theorem Numbered.resume {k : Fin P} {created : List Event} {v : Ingress} {ev : Event}
    {measured : Bool} {r : Return} (h : Numbered S k created (.push v ev measured)) :
    Numbered S k created (resumeIngress config (.push v ev measured) r) := by
  cases r with
  | popped | closed => exact h
  | pushed ok =>
    cases ok with
    | true =>
      rw [resumeIngress]
      split_ifs <;> exact h.keep (by rintro ⟨⟩) fun seq hl => hl
    | false =>
      rw [resumeIngress]
      split_ifs <;> exact h.keep (by rintro ⟨⟩) fun seq hl => hl

theorem Numbered.step {k : Fin P} (h : Numbered S k (x.created k) (s.loc (.ingress k)))
    (hstep : Program.Flows (.ingress k) now s s') :
    Numbered S k (x.created k ++ S.makes k now (s.loc (.ingress k)) (s.returning (.ingress k)))
      (s'.loc (.ingress k)) := by
  cases hstep with
  | own free acts loc =>
    -- Events are made in own steps only.
    rw [free, loc, Function.update_self]
    exact h.own (actIngress_own acts)
  | still free issues loc | store free issues loc | take free issues loc =>
    obtain ⟨v, ev, measured, hl, -, -⟩ := issues_ingress issues
    rw [loc, free]
    rw [hl] at h ⊢
    change Numbered S k (x.created k ++ []) _
    rw [List.append_nil]
    exact h
  | back returning issues answer loc =>
    obtain ⟨v, ev, measured, hl, -, -⟩ := issues_ingress issues
    rw [loc, returning, Function.update_self]
    rw [hl] at h ⊢
    change Numbered S k (x.created k ++ []) _
    rw [List.append_nil]
    exact h.resume

/-- **In every run the ingress threads number their events.** -/
theorem numbered (H : Program.Protocol (S.program config times)) (h : S.Observed config times s x)
    (k : Fin P) : Numbered S k (x.created k) (s.loc (.ingress k)) := by
  induction h with
  | start => exact ⟨nofun, fun _ => rfl, nofun⟩
  | @step s s' x c hobserved hstep ih =>
    have hgood : Program.Good H s := Program.good_of_reachableIf hobserved.reachable
    have hflows := hgood.flows (hgood.step hobserved.reachable hstep) hstep
    have hother := Program.othersStay hstep
    obtain ⟨t, now, spurious, wake, addr⟩ := c
    have hstays (ht : t ≠ .ingress k) : s'.loc (.ingress k) = s.loc (.ingress k) :=
      (hother _ ht.symm).2.2
    rcases t with j | _ | j | _
    · by_cases hj : j = k
      · subst hj
        change Numbered S j (Function.update x.created j _ j) _
        rw [Function.update_self]
        exact ih.step hflows
      · change Numbered S k (Function.update x.created j _ k) _
        rw [Function.update_of_ne (Ne.symm hj), hstays (by simpa using hj)]
        exact ih
    · rw [hstays nofun]
      exact ih
    · rw [hstays nofun]
      exact ih
    · rw [hstays nofun]
      exact ih

end Pipeline

/-! ### The identities -/

open Pipeline

/-- The number that the identity of an event stands for. -/
theorem id_toNat {k i : ℕ} (hk : k < 2 ^ 16) (hi : i < 2 ^ 48) :
    (UInt64.ofNat k <<< 48 ||| UInt64.ofNat i).toNat = k * 2 ^ 48 + i := by
  have hsize : UInt64.size = 2 ^ 64 := rfl
  have hk' : (UInt64.ofNat k).toNat = k := UInt64.toNat_ofNat_of_lt' (by omega)
  have hi' : (UInt64.ofNat i).toNat = i := UInt64.toNat_ofNat_of_lt' (by omega)
  have hshift : (UInt64.ofNat k <<< 48).toNat = k <<< 48 := by
    rw [UInt64.toNat_shiftLeft, hk', Nat.mod_eq_of_lt]
    · rfl
    · change k <<< 48 < 2 ^ 64
      rw [Nat.shiftLeft_eq]
      omega
  rw [UInt64.toNat_or, hshift, hi', ← Nat.shiftLeft_add_eq_or_of_lt hi, Nat.shiftLeft_eq]

variable {config : AcceptedConfig} {max_size : ℕ} {times : Times}
  {S : Pipeline config.ingress config.workers}
  {s : (S.program config.toPipelineConfig times).State}
  {x : History config.ingress config.workers}

/-- The identity of the `i`-th event of an ingress thread. -/
theorem id_created (H : Program.Protocol (S.program config.toPipelineConfig times))
    (h : S.Observed config.toPipelineConfig times s x) (hP : config.ingress ≤ 2 ^ 16)
    {k : Fin config.ingress} {i : ℕ} {ev : Event} (hi : i < 2 ^ 48)
    (hev : (x.created k)[i]? = some ev) : ev.id.toNat = k * 2 ^ 48 + i := by
  obtain ⟨now, rfl⟩ := (numbered H h k).event i ev hev
  exact id_toNat (by omega) hi

/-- **No two events have the same identity.** -/
theorem nodup_ids (H : Program.Protocol (S.program config.toPipelineConfig times))
    (h : S.Observed config.toPipelineConfig times s x) (hP : config.ingress ≤ 2 ^ 16)
    (hcreated : ∀ k, (x.created k).length ≤ 2 ^ 48) :
    (((List.finRange config.ingress).flatMap x.created).map Event.id).Nodup := by
  rw [List.map_flatMap, List.nodup_flatMap]
  have hid {k : Fin config.ingress} {i : ℕ} {id : UInt64}
      (hi : ((x.created k).map Event.id)[i]? = some id) :
      i < 2 ^ 48 ∧ id.toNat = k * 2 ^ 48 + i := by
    rw [List.getElem?_map] at hi
    obtain ⟨ev, hev, rfl⟩ := Option.map_eq_some_iff.mp hi
    have hlt : i < 2 ^ 48 := by
      have := (List.getElem?_eq_some_iff.mp hev).1
      have := hcreated k
      omega
    exact ⟨hlt, id_created H h hP hlt hev⟩
  refine ⟨fun k _ => ?_, ?_⟩
  · -- Of one thread: the lower 48 bits tell the events apart.
    rw [List.nodup_iff_getElem?_ne_getElem?]
    intro i j hij hj heq
    rw [List.getElem?_eq_getElem hj] at heq
    have hi := hid heq
    have hj := hid (List.getElem?_eq_getElem hj)
    omega
  · refine (List.nodup_finRange _).imp fun {k j} hne => ?_
    -- Of two threads: the bits above them do.
    intro id hk hj
    obtain ⟨a, ha⟩ := List.mem_iff_getElem?.mp hk
    obtain ⟨b, hb⟩ := List.mem_iff_getElem?.mp hj
    have ha := hid ha
    have hb := hid hb
    exact hne (Fin.ext (by omega))

/-! ### The routing -/

/-- Where the target is not the thread's own worker, it is a remainder. -/
theorem target_worker_eq_mod (h : runPipelineScenario max_size config.toPipelineConfig = .ok S)
    (htop : config.topology ≠ .directLocalSpsc) (k : Fin config.ingress) (route_key : UInt64) :
    S.target_worker k route_key = route_key % UInt64.ofNat config.workers := by
  rw [runPipelineScenario_eq] at h
  split at h
  · obtain ⟨Q, -, h⟩ := bind_eq_ok h
    cases h
    rfl
  · obtain ⟨Q, -, h⟩ := bind_eq_ok h
    obtain ⟨R, -, h⟩ := bind_eq_ok h
    cases h
    rfl
  · rename_i hdirect
    exact absurd hdirect htop

/-- The target of the `i`-th event of an ingress thread. -/
theorem target_created (h : runPipelineScenario max_size config.toPipelineConfig = .ok S)
    (htop : config.topology ≠ .directLocalSpsc) (hW : config.workers < 2 ^ 64)
    (hP : config.ingress ≤ 2 ^ 16) (hobserved : S.Observed config.toPipelineConfig times s x)
    {k : Fin config.ingress} {i : ℕ} {ev : Event} (hi : i < 2 ^ 48)
    (hev : (x.created k)[i]? = some ev) :
    ev.target_worker.toNat = (k * 2 ^ 48 + i) % config.workers := by
  obtain ⟨H⟩ : Nonempty (Program.Protocol (S.program config.toPipelineConfig times)) :=
    runPipelineScenario_protocol h
  have hid := id_created H hobserved hP hi hev
  obtain ⟨now, rfl⟩ := (numbered H hobserved k).event i ev hev
  have hW' : (UInt64.ofNat config.workers).toNat = config.workers := UInt64.toNat_ofNat_of_lt' hW
  change (S.target_worker k _).toNat = _
  rw [target_worker_eq_mod h htop, UInt64.toNat_mod, hW']
  exact congrArg (· % config.workers) hid

/-- The events of an ingress thread that are meant for one worker, by their numbers. -/
theorem countP_target (h : runPipelineScenario max_size config.toPipelineConfig = .ok S)
    (htop : config.topology ≠ .directLocalSpsc) (hW : config.workers < 2 ^ 64)
    (hP : config.ingress ≤ 2 ^ 16) (hobserved : S.Observed config.toPipelineConfig times s x)
    (hcreated : ∀ k, (x.created k).length ≤ 2 ^ 48) (k : Fin config.ingress) (n : ℕ)
    (w : Fin config.workers) :
    ((x.created k).take n).countP (fun ev => ev.target_worker = UInt64.ofNat w) =
      (List.range ((x.created k).take n).length).countP
        (fun i => (k * 2 ^ 48 + i) % config.workers = w) := by
  have hmap : ((x.created k).take n).map (fun ev => ev.target_worker.toNat) =
      (List.range ((x.created k).take n).length).map
        (fun i => (k * 2 ^ 48 + i) % config.workers) := by
    apply List.ext_getElem
    · simp
    · intro i hi _
      rw [List.length_map] at hi
      have hlt : i < (x.created k).length := by
        rw [List.length_take] at hi
        omega
      have hev : (x.created k)[i]? = some ((x.created k).take n)[i] := by
        rw [List.getElem_take, List.getElem?_eq_getElem hlt]
      have := hcreated k
      rw [List.getElem_map, List.getElem_map, List.getElem_range]
      exact target_created h htop hW hP hobserved (by omega) hev
  calc
    ((x.created k).take n).countP (fun ev => ev.target_worker = UInt64.ofNat w) =
        (((x.created k).take n).map (fun ev => ev.target_worker.toNat)).countP (· = (w : ℕ)) := by
      rw [List.countP_map]
      apply List.countP_congr
      intro ev _
      have hw : (UInt64.ofNat w).toNat = w := UInt64.toNat_ofNat_of_lt' (w.isLt.trans hW)
      simp only [Function.comp_apply, decide_eq_true_eq]
      rw [← UInt64.toNat_inj, hw]
    _ = _ := by
      rw [hmap, List.countP_map]
      rfl

/-- The dispatcher sends an event to the worker it is meant for. -/
theorem target_mod_workers (h : runPipelineScenario max_size config.toPipelineConfig = .ok S)
    (htop : config.topology ≠ .directLocalSpsc)
    (hobserved : S.Observed config.toPipelineConfig times s x)
    {k : Fin config.ingress} {ev : Event} (hev : ev ∈ x.created k) :
    ev.target_worker.toNat % config.workers = ev.target_worker.toNat := by
  obtain ⟨H⟩ : Nonempty (Program.Protocol (S.program config.toPipelineConfig times)) :=
    runPipelineScenario_protocol h
  obtain ⟨i, hi⟩ := List.mem_iff_getElem?.mp hev
  obtain ⟨now, rfl⟩ := (numbered H hobserved k).event i ev hi
  change (S.target_worker k _).toNat % _ = (S.target_worker k _).toNat
  rw [target_worker_eq_mod h htop]
  exact Nat.mod_eq_of_lt (toNat_mod_lt _ (NeZero.pos config.workers))

/-- **Identities and routing.** With at most `2 ^ 16` ingress threads that make at most `2 ^ 48`
events each, no two events of a run have the same `id`.  Where the ingress threads share a queue,
the first `n` events of each are spread evenly over the workers, of which there are as many as 64
bits can count, and the dispatcher pushes an event to the ring of its `target_worker`. -/
theorem ids_and_routing (h : runPipelineScenario max_size config.toPipelineConfig = .ok S)
    (hP : config.ingress ≤ 2 ^ 16) (hW : config.workers < 2 ^ 64)
    (hobserved : S.Observed config.toPipelineConfig times s x)
    (hcreated : ∀ k, (x.created k).length ≤ 2 ^ 48) :
    (((List.finRange config.ingress).flatMap x.created).map Event.id).Nodup ∧
    (config.topology ≠ .directLocalSpsc → ∀ k,
      (∀ n, ∀ w w' : Fin config.workers,
        ((x.created k).take n).countP (fun ev => ev.target_worker = UInt64.ofNat w) ≤
          ((x.created k).take n).countP (fun ev => ev.target_worker = UInt64.ofNat w') + 1) ∧
      ∀ ev ∈ x.created k, ∃ w : Fin config.workers, ev.target_worker = UInt64.ofNat w ∧
        ∀ g measured, S.actDispatcher config.toPipelineConfig times g (.push ev measured) =
          some (.call (S.sink w) (.push ev config.policy))) := by
  obtain ⟨H⟩ : Nonempty (Program.Protocol (S.program config.toPipelineConfig times)) :=
    runPipelineScenario_protocol h
  refine ⟨nodup_ids H hobserved hP hcreated, fun htop k => ⟨fun n w w' => ?_, fun ev hev => ?_⟩⟩
  · rw [countP_target h htop hW hP hobserved hcreated,
      countP_target h htop hW hP hobserved hcreated]
    exact countP_turn_le w.isLt w'.isLt _ _
  · have htarget := target_mod_workers h htop hobserved hev
    refine ⟨Fin.ofNat config.workers ev.target_worker.toNat, ?_, fun g measured => rfl⟩
    rw [Fin.val_ofNat, htarget]
    exact UInt64.ofNat_toNat.symm

/-- Two ingress threads, and three workers at one queue. -/
def twoIngress : AcceptedConfig :=
  ⟨{ ingress_threads := 2, worker_threads := 3 }, by decide⟩

/-- Each of the two starts, tests the stop flag, reads the clock, and makes an event. -/
def firstEvents (S : Pipeline twoIngress.ingress twoIngress.workers) :
    List (S.program twoIngress.toPipelineConfig (twoIngress.times 0)).Choice :=
  List.replicate 4 { thread := .ingress (0 : Fin 2), input := (7 : ℤ) } ++
    List.replicate 4 { thread := .ingress (1 : Fin 2), input := (8 : ℤ) }

/-- The two events have identities of their own, and are meant for different workers. -/
theorem ids_and_routing_two :
    ∃ S, runPipelineScenario (2 ^ 58) twoIngress.toPipelineConfig = .ok S ∧
      ∃ (s : (S.program twoIngress.toPipelineConfig (twoIngress.times 0)).State) (x : History 2 3),
        S.Observed twoIngress.toPipelineConfig (twoIngress.times 0) s x ∧
          (x.created 0).map Event.target_worker = [0] ∧
          (x.created 1).map Event.target_worker = [1] ∧
          (((List.finRange 2).flatMap x.created).map Event.id).Nodup := by
  have hrun {S : Pipeline twoIngress.ingress twoIngress.workers}
      (h : runPipelineScenario (2 ^ 58) twoIngress.toPipelineConfig = .ok S)
      {s : (S.program twoIngress.toPipelineConfig (twoIngress.times 0)).State} {x : History 2 3}
      (hs : S.observeRun twoIngress.toPipelineConfig (twoIngress.times 0) (.initial _) {}
        (firstEvents S) = some (s, x)) (hone : ∀ k, (x.created k).length = 1) :
      S.Observed twoIngress.toPipelineConfig (twoIngress.times 0) s x ∧
        (((List.finRange 2).flatMap x.created).map Event.id).Nodup := by
    have hobserved := observed_of_run _ .start hs
    refine ⟨hobserved, (ids_and_routing h (by decide) (by decide) hobserved fun k => ?_).1⟩
    have := hone k
    omega
  obtain ⟨hobserved, hnodup⟩ := hrun rfl (Option.some_get (by decide)).symm (by decide)
  exact ⟨_, rfl, _, _, hobserved, by decide, by decide, hnodup⟩

end Laboratory.QueueLatency
