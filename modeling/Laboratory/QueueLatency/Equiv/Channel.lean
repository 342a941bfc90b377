import Laboratory.QueueLatency.Equiv.Program

/-!
# Closing a queue of a program

A `Channel` names the threads that still push to a queue of a program and those that still pop
from it.  When nobody pushes any more at the moment of `close`, and some consumer has yet to look
into the queue then (`Channel.CloseHeeded`), whatever is stored is found: `Channel.drained` says
that the queue is empty once its consumers have left.
-/

namespace Laboratory.QueueLatency

open Concurrency

variable {κ τ : Type} [DecidableEq κ] [DecidableEq τ] {P : Program κ τ}

/-- Who uses the queue `q`: the places in the code from which a thread may still push to it, and
those from which it pops until it is told that the queue is closed. -/
structure Channel (P : Program κ τ) (q : κ) where
  pushes : ∀ t, P.Loc t → Prop
  pops : ∀ t, P.Loc t → Prop
  issues_push : ∀ {t l ev policy}, P.Issues t l q (.push ev policy) → pushes t l
  issues_pop : ∀ {t l}, P.Issues t l q .pop → pops t l
  /-- Whoever pops from this queue pops from no other. -/
  pops_only : ∀ {t l q'}, P.Issues t l q' .pop → pops t l → q' = q
  stop : ∀ {t l} input g, P.Issues t l q .pop → P.stop input t g l = false
  own_pushes : ∀ {input t g loc g' l}, P.act input t g loc = some (.own g' l) → pushes t l →
    pushes t (loc t)
  own_pops : ∀ {input t g loc g' l}, P.act input t g loc = some (.own g' l) → pops t (loc t) →
    pops t l
  resume_pushes : ∀ {t l r}, pushes t (P.resume t l r) → pushes t l
  resume_pops : ∀ {t l r}, (∀ out, r ≠ .popped false out) → pops t l → pops t (P.resume t l r)

namespace Channel

variable {q : κ} (C : Channel P q)

/-- If the thread `c.thread` closes the queue now, then no event of the kind `m` is left in it, or
a thread that pops from it has yet to look. -/
def CloseHeeded (m : Event → Prop) (s : P.State) (c : P.Choice) : Prop :=
  (s.queue q).closing c.thread = true →
    (∀ ev ∈ (P.queue q).content (s.queue q).shared, ¬ m ev) ∨
      ∃ t, C.pops t (s.loc t) ∧ (s.queue q).foundEmpty t = false

/-- Whenever somebody closes the queue, nobody pushes to it any more. -/
def ClosedLast (s : P.State) : Prop :=
  ∀ t done, (s.queue q).frame t = some (.close done) → ∀ t', ¬ C.pushes t' (s.loc t')

variable [Fintype τ] {H : Program.Protocol P} {m : Event → Prop} {s s' : P.State} {c : P.Choice}

/-- The invariant of a queue that is closed: who leaves has seen it closed; when it is closed,
nobody pushes, and what is left in it is awaited by a thread that will look. -/
structure Draining (H : Program.Protocol P) (m : Event → Prop) (s : P.State) : Prop where
  leaving : ∀ t, H.phase s q t = .leaving → (H.store s q).closed = true
  quiet : (H.store s q).closed = true → ∀ t, ¬ C.pushes t (s.loc t)
  awaited : (H.store s q).closed = true → (∀ ev ∈ (H.store s q).stored, ¬ m ev) ∨
    (H.store s q).avail = 0 ∨ ∃ t, C.pops t (s.loc t) ∧ (H.phase s q t).isQuitting = false

variable {C}

theorem draining_initial : C.Draining H m (.initial P) := by
  have hopen : (H.store (.initial P) q).closed ≠ true := by
    rw [show H.store (.initial P) q = ⟨[], 0, H.bound q, false⟩ from (H.refines q).init_store]
    simp
  refine ⟨?_, fun h => absurd h hopen, fun h => absurd h hopen⟩
  rintro t ⟨⟩

/-- A step that leaves the queue alone. -/
theorem Draining.relocate (hs : C.Draining H m s) (hqueue : s'.queue q = s.queue q)
    (hpush : ∀ t, C.pushes t (s'.loc t) → C.pushes t (s.loc t))
    (hpop : ∀ t, C.pops t (s.loc t) → C.pops t (s'.loc t)) : C.Draining H m s' := by
  have hstore : H.store s' q = H.store s q := by rw [Program.Protocol.store, hqueue]; rfl
  have hphase : H.phase s' q = H.phase s q := by rw [Program.Protocol.phase, hqueue]; rfl
  constructor <;> rw [hstore]
  · rw [hphase]
    exact hs.leaving
  · intro hc t ht
    exact hs.quiet hc t (hpush t ht)
  · intro hc
    rw [hphase]
    refine (hs.awaited hc).imp_right (Or.imp_right ?_)
    rintro ⟨t, ht, hquit⟩
    exact ⟨t, hpop t ht, hquit⟩

/-- A thread enters an operation on the queue. -/
theorem Draining.enter (hs : C.Draining H m s) {call : Call}
    (hqueue : s'.queue q = (s.queue q).call c.thread call) (hloc : s'.loc = s.loc) :
    C.Draining H m s' := by
  have hstore : H.store s' q = H.store s q := by rw [Program.Protocol.store, hqueue]; rfl
  have hphase : H.phase s' q = Function.update (H.phase s q) c.thread call.phase := by
    rw [Program.Protocol.phase, hqueue]
    exact (H.refines q).phases_call _ _ _
  constructor <;> rw [hstore]
  · intro t ht
    rw [hphase] at ht
    exact hs.leaving t (eq_of_update_eq ht (by cases call <;> simp [Call.phase]))
  · rw [hloc]
    exact hs.quiet
  · intro hc
    rw [hphase, hloc]
    refine (hs.awaited hc).imp_right (Or.imp_right ?_)
    rintro ⟨t, ht, hquit⟩
    refine ⟨t, ht, ?_⟩
    by_cases htc : t = c.thread
    · subst htc
      rw [Function.update_self]
      cases call <;> rfl
    · rwa [Function.update_of_ne htc]

/-- A thread leaves an operation on the queue: if the operation was a `pop` that has failed, then
the thread was not the one that had yet to look. -/
theorem Draining.leave (hs : C.Draining H m s) (hgood : Program.Good H s) {r : Return}
    (hr : (s.queue q).returned c.thread = some r)
    (hloc : s'.loc = Function.update s.loc c.thread (P.resume c.thread (s.loc c.thread) r))
    (hqueue : s'.queue q = (s.queue q).leave c.thread r) : C.Draining H m s' := by
  have hstore : H.store s' q = H.store s q := by rw [Program.Protocol.store, hqueue]; rfl
  have hphase : H.phase s' q = Function.update (H.phase s q) c.thread .idle := by
    rw [Program.Protocol.phase, hqueue]
    exact Refines.phases_leave _ _ _ _
  constructor <;> rw [hstore]
  · intro t ht
    rw [hphase] at ht
    exact hs.leaving t (eq_of_update_eq ht (by simp))
  · intro hc t ht
    apply hs.quiet hc t
    by_cases htc : t = c.thread
    · subst htc
      rw [hloc, Function.update_self] at ht
      exact C.resume_pushes ht
    · rwa [hloc, Function.update_of_ne htc] at ht
  · intro hc
    rw [hphase, hloc]
    refine (hs.awaited hc).imp_right (Or.imp_right ?_)
    rintro ⟨t, ht, hquit⟩
    refine ⟨t, ?_, ?_⟩
    · by_cases htc : t = c.thread
      · subst htc
        rw [Function.update_self]
        refine C.resume_pops ?_ ht
        rintro out rfl
        -- A `pop` that has failed was about to leave, so that it was quitting.
        obtain ⟨f, hf, hres⟩ := returned_eq_some hr
        have hreports := ((H.refines q).reports (hgood.queue q).inv hf hres).2
        have hp : H.phase s q c.thread = .leaving := (phases_eq _ hf).trans hreports
        rw [hp] at hquit
        cases hquit
      · rwa [Function.update_of_ne htc]
    · by_cases htc : t = c.thread
      · subst htc
        rw [Function.update_self]
        rfl
      · rwa [Function.update_of_ne htc]

/-- What a thread is in while nobody pushes is not a push. -/
theorem isPush_eq_false (hgood : Program.Good H s) (hquiet : ∀ t, ¬ C.pushes t (s.loc t))
    {t : τ} {f : Frame (P.queue q)} (hf : (s.queue q).frame t = some f) :
    ((H.A q).framePhase f).isPush = false := by
  have htyped := (hgood.queue q).typed t f hf
  have hissued := (hgood.issued t q f hf).2
  cases f with
  | push ev policy pc => exact absurd (C.issues_push hissued) (hquiet t)
  | pop pc =>
    revert htyped
    cases (H.A q).framePhase (.pop pc) <;>
      simp [Phase.of, Phase.isPush, Frame.toCall, Call.operation]
  | close done => cases done <;> rfl

/-- A thread that has not found the queue empty is not about to leave it, while it is open and
nobody pushes to it. -/
theorem isQuitting_eq_false (hs : C.Draining H m s) (hgood : Program.Good H s)
    (hquiet : ∀ t, ¬ C.pushes t (s.loc t)) (hopen : (H.store s q).closed = false) {t : τ}
    (ht : (s.queue q).foundEmpty t = false) : (H.phase s q t).isQuitting = false := by
  cases hf : (s.queue q).frame t with
  | none =>
    rw [show H.phase s q t = (H.A q).phase ((s.queue q).frame t) from rfl, hf]
    rfl
  | some f =>
    have hp : H.phase s q t = (H.A q).framePhase f := phases_eq _ hf
    cases f with
    | push ev policy pc =>
      exact absurd (C.issues_push (hgood.issued t q _ hf).2) (hquiet t)
    | pop pc =>
      rw [QState.foundEmpty, hf] at ht
      have hempty : H.phase s q t ≠ .sawEmpty := by
        rw [hp]
        intro h
        exact absurd (((H.refines q).foundEmpty pc).mpr h) (by simpa using ht)
      have hleaving : H.phase s q t ≠ .leaving := by
        intro h
        rw [hs.leaving t h] at hopen
        cases hopen
      revert hempty hleaving
      cases H.phase s q t <;> simp [Phase.isQuitting]
    | close done =>
      rw [hp]
      cases done <;> rfl

/-- A `pop` of the channel is never told to stop. -/
theorem stop_eq_false (C : Channel P q) (hgood : Program.Good H s) {f : Frame (P.queue q)}
    (hf : (s.queue q).frame c.thread = some f) (hpop : f.toCall = .pop) :
    (c.env s).stop = false := by
  have hissued := (hgood.issued _ q f hf).2
  rw [hpop] at hissued
  exact C.stop _ _ hissued

/-- A `pop` is what returns from the queue a thread pops from, if anything is. -/
theorem queue_eq_of_popped (C : Channel P q) (hgood : Program.Good H s) {q' : κ} {t : τ}
    (hpops : C.pops t (s.loc t)) {out : Option Event}
    (hr : (s.queue q').returned t = some (.popped false out)) : q' = q := by
  obtain ⟨f, hf, hres⟩ := returned_eq_some hr
  have hissued := (hgood.issued _ _ f hf).2
  cases f with
  | push ev policy pc =>
    obtain ⟨ok, -, hok⟩ := Option.map_eq_some_iff.mp hres
    cases hok
  | pop pc => exact C.pops_only hissued hpops
  | close done => cases done <;> cases hres

/-- A step inside an operation, while the queue is closed: the thread that had yet to look has
looked, or finds nothing announced. -/
theorem Draining.awaited_of_closed (hs : C.Draining H m s) (hgood : Program.Good H s)
    (hx : (s.queue q).step (c.env s) c.thread = some (s'.queue q)) (hloc : s'.loc = s.loc)
    (hclosed : (H.store s q).closed = true) :
    (∀ ev ∈ (H.store s' q).stored, ¬ m ev) ∨ (H.store s' q).avail = 0 ∨
      ∃ t, C.pops t (s'.loc t) ∧ (H.phase s' q t).isQuitting = false := by
  obtain ⟨p', f, hf, htyped, hmove, hphase⟩ := hgood.exists_move hx
  have hpush : (H.phase s q c.thread).isPush = false := by
    rw [show H.phase s q c.thread = (H.A q).framePhase f from phases_eq _ hf]
    exact isPush_eq_false hgood (hs.quiet hclosed) hf
  obtain ⟨hstored, havail⟩ := hmove.shrinks hpush
  rcases hs.awaited hclosed with h | h | ⟨t, ht, hquit⟩
  · exact .inl fun ev hev => h ev (hstored.subset hev)
  · exact .inr (.inl (by omega))
  · by_cases htc : t = c.thread
    · subst htc
      cases hquit' : p'.isQuitting with
      | false =>
        refine .inr (.inr ⟨c.thread, hloc ▸ ht, ?_⟩)
        rwa [hphase, Function.update_self]
      | true =>
        -- Only a `pop` quits, and since none is told to stop it has found nothing announced.
        have hpop : f.toCall = .pop := by
          revert htyped hquit'
          cases f.toCall <;> cases p' <;> simp [Phase.of, Phase.isQuitting, Call.operation]
        rw [stop_eq_false C hgood hf hpop] at hmove
        rcases hmove.quits hquit' with h | h
        · rw [hquit] at h
          cases h
        · exact .inr (.inl h)
    · refine .inr (.inr ⟨t, hloc ▸ ht, ?_⟩)
      rwa [hphase, Function.update_of_ne htc]

/-- The step that closes the queue. -/
theorem Draining.awaited_of_close (hs : C.Draining H m s) (hgood : Program.Good H s)
    (hlast : C.ClosedLast s) (hok : C.CloseHeeded m s c)
    (hx : (s.queue q).step (c.env s) c.thread = some (s'.queue q)) (hloc : s'.loc = s.loc)
    (hopen : (H.store s q).closed = false) (hp : H.phase s q c.thread = .closing) :
    (∀ ev ∈ (H.store s' q).stored, ¬ m ev) ∨
      ∃ t, C.pops t (s'.loc t) ∧ (H.phase s' q t).isQuitting = false := by
  have hf := hgood.frame_of_closing hx hp
  obtain ⟨p', f, hf', htyped, hmove, hphase⟩ := hgood.exists_move hx
  rw [hf, Option.some.injEq] at hf'
  subst hf'
  have hquiet := hlast _ _ hf
  rcases hok (by rw [QState.closing, hf]) with h | ⟨t, ht, hfound⟩
  · left
    -- No event of the kind is left.
    have hstored := (hmove.shrinks (by rw [hp]; rfl)).1
    intro ev hev
    apply h
    rw [(H.refines q).content]
    exact hstored.subset hev
  · refine .inr ⟨t, hloc ▸ ht, ?_⟩
    -- A thread that has not found the queue empty is there to look again.
    rw [hphase]
    by_cases htc : t = c.thread
    · subst htc
      rw [Function.update_self]
      revert htyped
      cases p' <;> simp [Phase.of, Phase.isQuitting, Frame.toCall, Call.operation]
    · rw [Function.update_of_ne htc]
      exact isQuitting_eq_false hs hgood hquiet hopen hfound

/-- A thread takes a step of an operation on the queue. -/
theorem Draining.inside (hs : C.Draining H m s) (hgood : Program.Good H s)
    (hlast : C.ClosedLast s) (hok : C.CloseHeeded m s c)
    (hx : (s.queue q).step (c.env s) c.thread = some (s'.queue q)) (hloc : s'.loc = s.loc) :
    C.Draining H m s' := by
  obtain ⟨p', f, hf, htyped, hmove, hphase⟩ := hgood.exists_move hx
  constructor
  · intro t ht
    by_cases htc : t = c.thread
    · subst htc
      rw [hphase, Function.update_self] at ht
      subst ht
      have hpop : f.toCall = .pop := by
        revert htyped
        cases f.toCall <;> simp [Phase.of, Call.operation]
      rw [stop_eq_false C hgood hf hpop] at hmove
      -- A `pop` leaves because it has seen the queue closed.
      rcases hmove.leaves with h | h
      · exact hmove.closed_mono (hs.leaving _ h)
      · exact hmove.closed_mono h
    · rw [hphase, Function.update_of_ne htc] at ht
      exact hmove.closed_mono (hs.leaving t ht)
  · intro hc
    rw [hloc]
    rcases hmove.closed_of hc with h | h
    · exact hs.quiet h
    · exact hlast _ _ (hgood.frame_of_closing hx h)
  · intro hc
    cases hbefore : (H.store s q).closed with
    | true => exact hs.awaited_of_closed hgood hx hloc hbefore
    | false =>
      rcases hmove.closed_of hc with h | h
      · rw [hbefore] at h
        cases h
      · exact (hs.awaited_of_close hgood hlast hok hx hloc hbefore h).imp_right .inr

/-- **One step of the program**, by what it means to the queue. -/
theorem Draining.step (hs : C.Draining H m s) (hgood : Program.Good H s) (hlast : C.ClosedLast s)
    (hok : C.CloseHeeded m s c) (h : P.step c s = some s') : C.Draining H m s' := by
  rcases Program.step_at q h with ⟨-, hact, hloc, hqueue⟩ | ⟨hloc, hqueue⟩ |
    ⟨hother, hcalling, hr, hloc, hqueue⟩ | ⟨-, -, hloc, hqueue⟩ | ⟨-, hr, hloc, hqueue⟩ |
    ⟨-, hx, hloc⟩
  · refine hs.relocate hqueue ?_ ?_ <;> intro t ht <;> rw [hloc] at * <;>
      by_cases htc : t = c.thread
    · subst htc
      rw [Function.update_self] at ht
      exact C.own_pushes hact ht
    · rwa [Function.update_of_ne htc] at ht
    · subst htc
      rw [Function.update_self]
      exact C.own_pops hact ht
    · rwa [Function.update_of_ne htc]
  · exact hs.relocate hqueue (fun t => by rw [hloc]; exact id) (fun t => by rw [hloc]; exact id)
  · refine hs.relocate hqueue ?_ ?_ <;> intro t ht <;> rw [hloc] at * <;>
      by_cases htc : t = c.thread
    · subst htc
      rw [Function.update_self] at ht
      exact C.resume_pushes ht
    · rwa [Function.update_of_ne htc] at ht
    · subst htc
      rw [Function.update_self]
      refine C.resume_pops ?_ ht
      -- A thread that pops from `q` has not popped from the other queue.
      rintro out rfl
      exact hother (C.queue_eq_of_popped hgood ht hr).symm
    · rwa [Function.update_of_ne htc]
  · exact hs.enter hqueue hloc
  · exact hs.leave hgood hr hloc hqueue
  · exact hs.inside hgood hlast hok hx hloc

/-- **In every run whose closing steps are heeded** the invariant holds. -/
theorem draining_of_reachableIf {ok : P.State → P.Choice → Prop}
    (hlast : ∀ s, P.Reachable s → C.ClosedLast s)
    (hok : ∀ s c, ok s c → C.CloseHeeded m s c) (h : P.ReachableIf ok s) :
    C.Draining H m s := by
  induction h with
  | refl => exact draining_initial
  | tail hreach hstep ih =>
    obtain ⟨c, hc, hstep⟩ := hstep
    exact ih.step (Program.good_of_reachableIf hreach)
      (hlast _ (Program.ReachableIf.reachable hreach))
      (hok _ _ hc) hstep

/-- Who returns from a `pop` that has failed has seen the queue closed. -/
theorem Draining.closed_of_returned (hs : C.Draining H m s) (hgood : Program.Good H s) {t : τ}
    {out : Option Event} (hr : (s.queue q).returned t = some (.popped false out)) :
    (H.store s q).closed = true := by
  obtain ⟨f, hf, hres⟩ := returned_eq_some hr
  have hreports := ((H.refines q).reports (hgood.queue q).inv hf hres).2
  exact hs.leaving t ((phases_eq _ hf).trans hreports)

/-- **A thread pops from the queue until it is closed.** -/
theorem pops_or_closed (C : Channel P q) (hlast : ∀ s, P.Reachable s → C.ClosedLast s) {t : τ}
    (hstart : C.pops t (P.start t)) (h : P.Reachable s) :
    C.pops t (s.loc t) ∨ (H.store s q).closed = true := by
  induction h with
  | refl => exact .inl hstart
  | @tail s s' hreach hstep ih =>
    obtain ⟨c, -, hc⟩ := hstep
    have hgood : Program.Good H s := Program.good_of_reachableIf hreach
    rcases ih with hpops | hclosed
    · by_cases ht : t = c.thread
      · subst ht
        rcases Program.loc_cases hc with hloc | ⟨l, hloc, ⟨g, hact⟩ | ⟨q', r, -, hr, rfl⟩⟩
        · exact .inl (hloc ▸ hpops)
        · left
          rw [hloc, Function.update_self]
          exact C.own_pops hact hpops
        · by_cases hfail : ∃ out, r = .popped false out
          · -- A thread stops popping after a `pop` that failed, which has seen the queue closed.
            obtain ⟨out, rfl⟩ := hfail
            obtain rfl := C.queue_eq_of_popped hgood hpops hr
            have hdraining : C.Draining H (fun _ => False) s :=
              draining_of_reachableIf hlast (fun _ _ _ _ => .inl fun _ _ => id) hreach
            exact .inr (hgood.closed_mono hc (hdraining.closed_of_returned hgood hr))
          · left
            rw [hloc, Function.update_self]
            exact C.resume_pops (fun out heq => hfail ⟨out, heq⟩) hpops
      · exact .inl ((Program.others_eq hc ht).2.2 ▸ hpops)
    · exact .inr (hgood.closed_mono hc hclosed)

/-- **The queue is drained.** Once it is closed and all its consumers have left, pops have returned
what pushes have stored, but for events that are not of the kind `m`. -/
theorem Draining.drained (hs : C.Draining H m s) (hgood : Program.Good H s)
    (hclosed : (H.store s q).closed = true) (hgone : ∀ t, ¬ C.pops t (s.loc t)) :
    (∀ ev ∈ (P.queue q).content (s.queue q).shared, ¬ m ev) ∧
      ((s.queue q).pushed : Multiset Event) =
        (s.queue q).popped + (P.queue q).content (s.queue q).shared := by
  have hquiet : (s.queue q).Quiet := by
    intro t f hf
    have hissued := (hgood.issued t q f hf).2
    cases f with
    | push ev policy pc => exact absurd (C.issues_push hissued) (hs.quiet hclosed t)
    | pop pc => exact absurd (C.issues_pop hissued) (hgone t)
    | close done => exact ⟨done, rfl⟩
  have hinv := hgood.queue q
  refine ⟨?_, (H.refines q).flow_of_quiet hinv hquiet⟩
  rw [(H.refines q).content]
  rcases hs.awaited hclosed with h | h | ⟨t, ht, -⟩
  · exact h
  · have hnil : (H.store s q).stored = [] :=
      hinv.accounts.stored_eq_nil h fun t => (phases_of_quiet (H.A q) hquiet t).1
    rw [show ((H.A q).store (s.queue q).shared).stored = [] from hnil]
    simp
  · exact absurd ht (hgone t)

end Channel

end Laboratory.QueueLatency
