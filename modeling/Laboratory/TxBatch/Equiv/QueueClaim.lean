import Laboratory.TxBatch.QueueClaim
import Mathlib.Data.List.Basic

/-!
# Every job is processed once

`claimed_once`: with `FOR UPDATE SKIP LOCKED` no two sessions hold one job, no job that is done is
claimed, and no insertion hits a duplicate key.  `logged_once`: without it, the key of the log alone
keeps the results right, since a session inserts its log row before it updates its job.

Both rest on `Consistent`, which holds in either mode: an open transaction has written a log row as
soon as its insertion is behind it and a version of its job as soon as its update is, the keys in
the log are distinct, and those of the committed rows are the payloads of the jobs that are done.
-/

namespace Laboratory.TxBatch

/-- The key that the session has inserted and not committed. -/
def Session.insertedKey (x : Session) : Option String :=
  match x.place with
  | .inserted | .updated => x.payload
  | _ => none

/-- The job that the session has updated and not committed. -/
def Session.updatedJob (x : Session) : Option ℕ :=
  match x.place with
  | .updated => x.id
  | _ => none

theorem Session.insertedKey_eq_some {x : Session} {key : String} (h : x.insertedKey = some key) :
    x.payload = some key ∧ x.place ≠ .selected := by
  unfold Session.insertedKey at h
  split at h
  · rename_i hplace
    exact ⟨h, by rw [hplace]; nofun⟩
  · rename_i hplace
    exact ⟨h, by rw [hplace]; nofun⟩
  · cases h

/-- The version of a job that the update of a session writes. -/
def doneRow {τ : Type} (b : Bench τ) (t : τ) : JobRow :=
  { state := .DONE, owner := some (b.worker t) }

namespace QueueDb

variable {τ : Type} [DecidableEq τ] {b : Bench τ} {mode : ClaimMode} {s s' : QueueDb τ} {t : τ}
  {statement : Statement}

/-! ### The steps -/

/-- What holds of a session that is replaced and of the others holds of all. -/
theorem forall_session {p : τ → Session → Prop} {x : Session} (hx : p t x)
    (h : ∀ t', t' ≠ t → p t' (s.session t')) : ∀ t', p t' ((s.setSession t x).session t') :=
  (Function.forall_update_iff s.session p).mpr ⟨hx, h⟩

/-- **What a step does**: it moves the session on and changes nothing else, or it claims a job,
inserts a log row, writes a version of a job, ends the transaction, or commits it. -/
inductive Moved (b : Bench τ) (mode : ClaimMode) (t : τ) (s : QueueDb τ) : QueueDb τ → Prop
  | move {x : Session} (id : x.id = none ∨ x.id = (s.session t).id)
      (payload : x.payload = x.id.map b.payload)
      (key : x.insertedKey = (s.session t).insertedKey)
      (job : x.updatedJob = (s.session t).updatedJob) : Moved b mode t s (s.setSession t x)
  | claim {i : ℕ} (started : (s.session t).place = .started) (mem : i ∈ b.ids)
      (offers : s.offers mode t i = true) : Moved b mode t s
        { s.setSession t { place := .selected, id := some i, payload := some (b.payload i) } with
          lock := if mode = .good then Function.update s.lock i (some t) else s.lock }
  | insert {i : ℕ} (selected : (s.session t).place = .selected)
      (id : (s.session t).id = some i) (fresh : ∀ row ∈ s.log, row.dedupe_key ≠ b.payload i) :
      Moved b mode t s
        { s.setSession t { s.session t with place := .inserted } with
          log := s.log ++ [{ dedupe_key := b.payload i, worker := b.worker t, writer := some t }] }
  | update {i : ℕ} (inserted : (s.session t).place = .inserted) (id : (s.session t).id = some i)
      (free : ∀ t', s.lock i = some t' → t' = t) : Moved b mode t s
        { s.setSession t { s.session t with place := .updated } with
          version := Function.update s.version i (some (t, doneRow b t))
          lock := Function.update s.lock i (some t) }
  | finish : Moved b mode t s (s.finish t)
  | commit (updated : (s.session t).place = .updated) : Moved b mode t s (s.commit t)

theorem moved_of_insert (hplace : (s.session t).place = .selected)
    (hpayload : (s.session t).payload = (s.session t).id.map b.payload)
    (h : QueueDb.insert b t s = some s') : Moved b mode t s s' := by
  unfold QueueDb.insert at h
  dsimp only at h
  split at h
  · rename_i i key hid hkey
    obtain rfl : b.payload i = key := by
      rwa [hid, Option.map_some, hkey, Option.some_inj, eq_comm] at hpayload
    split at h
    · split_ifs at h
      cases h
      exact .finish
    · rename_i hfind
      cases h
      refine .insert hplace hid fun row hrow => ?_
      simpa using List.find?_eq_none.mp hfind row hrow
  · rename_i hnone
    cases h
    -- Without a job there is no key.
    have hid : (s.session t).id = none := by
      rcases hid : (s.session t).id with _ | i
      · rfl
      · rw [hid] at hpayload
        exact absurd hpayload (hnone i _ hid)
    rw [hid] at hpayload
    refine .move (.inr rfl) (by rw [hid]; exact hpayload) ?_ ?_
    · simp only [Session.insertedKey, hplace, hpayload, Option.map_none]
    · simp only [Session.updatedJob, hplace]

theorem moved_of_update (hplace : (s.session t).place = .inserted)
    (hpayload : (s.session t).payload = (s.session t).id.map b.payload)
    (h : QueueDb.update b t s = some s') : Moved b mode t s s' := by
  unfold QueueDb.update at h
  dsimp only at h
  split at h
  · rename_i i hid
    split_ifs at h with hfree
    cases h
    refine .update hplace hid fun t' ht' => ?_
    rw [ht'] at hfree
    by_contra hne
    exact hfree ⟨nofun, fun heq => hne (Option.some_inj.mp heq)⟩
  · rename_i hid
    cases h
    refine .move (.inr rfl) hpayload ?_ ?_
    · simp only [Session.insertedKey, hplace]
    · simp only [Session.updatedJob, hplace, hid]

theorem moved_of_step (hpayload : (s.session t).payload = (s.session t).id.map b.payload)
    (h : step b mode t statement s = some s') : Moved b mode t s s' := by
  unfold step at h
  split at h
  · rename_i hplace
    cases h
    refine .move (.inl rfl) rfl ?_ ?_
    · rw [Session.insertedKey, Session.insertedKey, hplace]
    · rw [Session.updatedJob, Session.updatedJob, hplace]
  · rename_i hplace
    cases h
    unfold select
    split
    · refine .move (.inl rfl) rfl ?_ ?_
      · rw [Session.insertedKey, Session.insertedKey, hplace]
      · rw [Session.updatedJob, Session.updatedJob, hplace]
    · rename_i i hfind
      exact .claim hplace (List.mem_of_find?_eq_some hfind) (List.find?_some hfind)
  · rename_i hplace
    exact moved_of_insert hplace hpayload h
  · rename_i hplace
    exact moved_of_update hplace hpayload h
  · rename_i hplace
    cases h
    exact .commit hplace
  · cases h
    exact .finish
  · cases h

/-! ### The invariant of both modes -/

/-- **The log and the jobs fit together.** -/
structure Consistent (b : Bench τ) (s : QueueDb τ) : Prop where
  payload : ∀ t, (s.session t).payload = (s.session t).id.map b.payload
  mem : ∀ t i, (s.session t).id = some i → i ∈ b.ids
  inserted : ∀ key t, (∃ row ∈ s.log, row.dedupe_key = key ∧ row.writer = some t) ↔
    (s.session t).insertedKey = some key
  worker : ∀ row ∈ s.log, ∀ t, row.writer = some t → row.worker = b.worker t
  nodup : (s.log.map LogRow.dedupe_key).Nodup
  version : ∀ i t row, s.version i = some (t, row) ↔
    (s.session t).updatedJob = some i ∧ row = doneRow b t
  logged : ∀ key, key ∈ s.keys ↔ ∃ i ∈ b.ids, (s.queue i).state = .DONE ∧ b.payload i = key
  owned : ∀ row ∈ s.log, row.writer = none → ∀ i ∈ b.ids, b.payload i = row.dedupe_key →
    (s.queue i).owner = some row.worker

/-! ### Rows -/

section Rows

variable {row row' : LogRow τ} {i : ℕ} {key : String}

@[simp] theorem dedupe_key_published : (row.published t).dedupe_key = row.dedupe_key := by
  unfold LogRow.published
  split_ifs <;> rfl

@[simp] theorem worker_published : (row.published t).worker = row.worker := by
  unfold LogRow.published
  split_ifs <;> rfl

theorem writer_published_eq_none :
    (row.published t).writer = none ↔ row.writer = none ∨ row.writer = some t := by
  unfold LogRow.published
  split_ifs with h <;> simp [h]

theorem writer_published_eq_some {t' : τ} :
    (row.published t).writer = some t' ↔ row.writer = some t' ∧ t' ≠ t := by
  unfold LogRow.published
  split_ifs with h
  · rw [h, Option.some_inj]
    exact iff_of_false nofun fun h => h.2 h.1.symm
  · refine ⟨fun h' => ⟨h', ?_⟩, And.left⟩
    rintro rfl
    exact h h'

omit [DecidableEq τ] in
theorem exists_append {log : List (LogRow τ)} {p : LogRow τ → Prop} :
    (∃ row ∈ log ++ [row'], p row) ↔ (∃ row ∈ log, p row) ∨ p row' := by
  simp only [List.mem_append, List.mem_singleton, or_and_right, exists_or, exists_eq_left]

/-- A committed transaction has published its rows, and has none left. -/
theorem log_commit : (s.commit t).log = s.log.map fun row => row.published t := by
  refine List.filter_eq_self.mpr fun row hrow => ?_
  obtain ⟨row, -, rfl⟩ := List.mem_map.mp hrow
  have hne : (row.published t).writer ≠ some t := fun h => (writer_published_eq_some.mp h).2 rfl
  simpa using hne

theorem exists_log_commit {p : LogRow τ → Prop} :
    (∃ row ∈ (s.commit t).log, p row) ↔ ∃ row ∈ s.log, p (row.published t) := by
  simp only [log_commit, List.mem_map, exists_exists_and_eq_and]

omit [DecidableEq τ] in
theorem mem_keys : key ∈ s.keys ↔ ∃ row ∈ s.log, row.dedupe_key = key ∧ row.writer = none := by
  simp only [keys, committed, List.mem_map, List.mem_filter, decide_eq_true_eq, and_assoc,
    and_comm (a := LogRow.dedupe_key _ = key)]

/-- The keys of a transaction join the log when it commits. -/
theorem mem_keys_commit : key ∈ (s.commit t).keys ↔
    key ∈ s.keys ∨ ∃ row ∈ s.log, row.dedupe_key = key ∧ row.writer = some t := by
  rw [mem_keys, mem_keys, exists_log_commit, ← exists_or]
  simp only [dedupe_key_published, writer_published_eq_none, and_or_left]

namespace Consistent

omit [DecidableEq τ] in
/-- A key is in the log once. -/
theorem row_ext (hs : Consistent b s) (h : row ∈ s.log) (h' : row' ∈ s.log)
    (hkey : row.dedupe_key = row'.dedupe_key) : row = row' :=
  List.inj_on_of_nodup_map hs.nodup h h' hkey

omit [DecidableEq τ] in
theorem keys_nodup (hs : Consistent b s) : s.keys.Nodup :=
  hs.nodup.sublist (List.filter_sublist.map _)

omit [DecidableEq τ] in
/-- Two sessions have not inserted one key. -/
theorem inserter_ext (hs : Consistent b s) {t t' : τ} (h : (s.session t).insertedKey = some key)
    (h' : (s.session t').insertedKey = some key) : t = t' := by
  obtain ⟨row, hrow, hkey, hwriter⟩ := (hs.inserted key t).mpr h
  obtain ⟨row', hrow', hkey', hwriter'⟩ := (hs.inserted key t').mpr h'
  rw [hs.row_ext hrow hrow' (hkey.trans hkey'.symm), hwriter'] at hwriter
  exact (Option.some_inj.mp hwriter).symm

omit [DecidableEq τ] in
/-- A session that has updated a job has inserted its payload before. -/
theorem insertedKey_of_updatedJob (hs : Consistent b s)
    (h : (s.session t).updatedJob = some i) : (s.session t).insertedKey = some (b.payload i) := by
  have hpayload := hs.payload t
  unfold Session.updatedJob at h
  split at h
  · rename_i hplace
    rw [h, Option.map_some] at hpayload
    rw [Session.insertedKey, hplace]
    exact hpayload
  · cases h

/-- What a session sees of a job. -/
theorem read_eq (hs : Consistent b s) (t : τ) (i : ℕ) :
    s.read t i = if (s.session t).updatedJob = some i then doneRow b t else s.queue i := by
  unfold read
  split_ifs with hjob
  · rw [(hs.version i t _).mpr ⟨hjob, rfl⟩]
    exact if_pos rfl
  · split
    · rename_i t' row hversion
      have hne : t' ≠ t := by
        rintro rfl
        exact hjob ((hs.version i t' row).mp hversion).1
      exact if_neg hne
    · rfl

end Consistent

end Rows

/-! ### The steps keep the invariant -/

omit [DecidableEq τ] in
theorem consistent_initial (b : Bench τ) : Consistent b {} where
  payload _ := rfl
  mem _ _ := nofun
  inserted _ _ := by
    constructor
    · rintro ⟨row, hrow, -⟩
      cases hrow
    · nofun
  worker _ := nofun
  nodup := List.nodup_nil
  version _ _ _ := by
    constructor
    · nofun
    · rintro ⟨hjob, -⟩
      cases hjob
  logged key := by
    constructor
    · nofun
    · rintro ⟨i, -, hstate, -⟩
      cases hstate
  owned _ := nofun

omit [DecidableEq τ] in
/-- Only row locks change. -/
theorem Consistent.relock (hs : Consistent b s) (lock : ℕ → Option τ) :
    Consistent b { s with lock } :=
  ⟨hs.payload, hs.mem, hs.inserted, hs.worker, hs.nodup, hs.version, hs.logged, hs.owned⟩

/-- A session moves on with the key it has inserted and the job it has updated. -/
theorem Consistent.move (hs : Consistent b s) {x : Session} (hid : ∀ i, x.id = some i → i ∈ b.ids)
    (hpayload : x.payload = x.id.map b.payload)
    (hkey : x.insertedKey = (s.session t).insertedKey)
    (hjob : x.updatedJob = (s.session t).updatedJob) : Consistent b (s.setSession t x) where
  payload := forall_session (p := fun _ x => x.payload = x.id.map b.payload) hpayload
    fun t' _ => hs.payload t'
  mem := forall_session (p := fun _ x => ∀ i, x.id = some i → i ∈ b.ids) hid fun t' _ => hs.mem t'
  inserted key :=
    forall_session (p := fun t' x => (∃ row ∈ s.log, row.dedupe_key = key ∧ row.writer = some t') ↔
      x.insertedKey = some key) (hkey ▸ hs.inserted key t) fun t' _ => hs.inserted key t'
  worker := hs.worker
  nodup := hs.nodup
  version i t' row := forall_session (p := fun t' x => s.version i = some (t', row) ↔
    x.updatedJob = some i ∧ row = doneRow b t') (hjob ▸ hs.version i t row)
    (fun t' _ => hs.version i t' row) t'
  logged := hs.logged
  owned := hs.owned

/-- A session keeps its variables when it goes on to another place. -/
theorem Consistent.placed (hs : Consistent b s) (t : τ) (place : Place) :
    (∀ t', ((s.setSession t { s.session t with place }).session t').payload =
      ((s.setSession t { s.session t with place }).session t').id.map b.payload) ∧
    ∀ t' i, ((s.setSession t { s.session t with place }).session t').id = some i → i ∈ b.ids :=
  ⟨forall_session (p := fun _ x => x.payload = x.id.map b.payload) (hs.payload t)
      fun t' _ => hs.payload t',
    forall_session (p := fun _ x => ∀ i, x.id = some i → i ∈ b.ids) (hs.mem t)
      fun t' _ => hs.mem t'⟩

/-- A session inserts a log row with a key that is not in the table. -/
theorem Consistent.insert (hs : Consistent b s) {i : ℕ}
    (hselected : (s.session t).place = .selected) (hid : (s.session t).id = some i)
    (hfresh : ∀ row ∈ s.log, row.dedupe_key ≠ b.payload i) :
    Consistent b
      { s.setSession t { s.session t with place := .inserted } with
        log :=
          s.log ++ [{ dedupe_key := b.payload i, worker := b.worker t, writer := some t }] } := by
  have hpayload := hs.payload t
  rw [hid, Option.map_some] at hpayload
  have hnone : (s.session t).insertedKey = none := by rw [Session.insertedKey, hselected]
  have hself : Session.insertedKey { s.session t with place := .inserted } =
      some (b.payload i) := hpayload
  refine ⟨(hs.placed t .inserted).1, (hs.placed t .inserted).2, fun key => ?_,
    fun row hrow t' hwriter => ?_, ?_, fun j t' row => ?_, fun key => ?_,
    fun row hrow hwriter => ?_⟩
  · refine forall_session (p := fun t' x =>
      (∃ row ∈ s.log ++ [({ dedupe_key := b.payload i, worker := b.worker t, writer := some t } :
        LogRow τ)], row.dedupe_key = key ∧ row.writer = some t') ↔ x.insertedKey = some key)
      ?_ fun t' ht => ?_
    · have hold : ¬ ∃ row ∈ s.log, row.dedupe_key = key ∧ row.writer = some t := by
        rw [hs.inserted, hnone]
        nofun
      rw [exists_append, or_iff_right hold, hself]
      exact (and_iff_left rfl).trans Option.some_inj.symm
    · rw [exists_append, or_iff_left fun h => ht (Option.some_inj.mp h.2).symm]
      exact hs.inserted key t'
  · rcases List.mem_append.mp hrow with hrow | hrow
    · exact hs.worker row hrow t' hwriter
    · rw [List.mem_singleton.mp hrow] at hwriter ⊢
      rw [← Option.some_inj.mp hwriter]
  · show (List.map _ _).Nodup
    rw [List.map_append]
    refine hs.nodup.append (List.nodup_singleton _) (List.disjoint_singleton.mpr fun hmem => ?_)
    obtain ⟨row, hrow, hkey⟩ := List.mem_map.mp hmem
    exact hfresh row hrow hkey
  · exact forall_session (p := fun t' x => s.version j = some (t', row) ↔
      x.updatedJob = some j ∧ row = doneRow b t')
      (by rw [hs.version, Session.updatedJob, Session.updatedJob, hselected])
      (fun t' _ => hs.version j t' row) t'
  · refine Iff.trans (mem_keys.trans ?_) (hs.logged key)
    rw [mem_keys]
    refine exists_append.trans (or_iff_left ?_)
    rintro ⟨-, hwriter⟩
    cases hwriter
  · rcases List.mem_append.mp hrow with hrow | hrow
    · exact hs.owned row hrow hwriter
    · rw [List.mem_singleton.mp hrow] at hwriter
      cases hwriter

/-- A session updates its job, whose payload it has inserted. -/
theorem Consistent.update (hs : Consistent b s) {i : ℕ}
    (hinserted : (s.session t).place = .inserted) (hid : (s.session t).id = some i) :
    Consistent b
      { s.setSession t { s.session t with place := .updated } with
        version := Function.update s.version i (some (t, doneRow b t)) } := by
  have hpayload := hs.payload t
  rw [hid, Option.map_some] at hpayload
  have hkey : (s.session t).insertedKey = some (b.payload i) := by
    rw [Session.insertedKey, hinserted]
    exact hpayload
  have hself : Session.updatedJob { s.session t with place := .updated } = some i := hid
  have hnone : (s.session t).updatedJob = none := by rw [Session.updatedJob, hinserted]
  refine ⟨(hs.placed t .updated).1, (hs.placed t .updated).2, fun key => ?_, hs.worker, hs.nodup,
    fun j t' row => ?_, hs.logged, hs.owned⟩
  · refine forall_session (p := fun t' x => (∃ row ∈ s.log, row.dedupe_key = key ∧
      row.writer = some t') ↔ x.insertedKey = some key) ?_ fun t' _ => hs.inserted key t'
    rw [hs.inserted, Session.insertedKey, Session.insertedKey, hinserted]
  · refine forall_session (p := fun t' x => Function.update s.version i (some (t, doneRow b t)) j =
      some (t', row) ↔ x.updatedJob = some j ∧ row = doneRow b t') ?_ (fun t' ht => ?_) t'
    · rw [hself, Option.some_inj]
      by_cases hji : j = i
      · subst hji
        rw [Function.update_self, Option.some_inj, Prod.mk.injEq]
        exact ⟨fun h => ⟨rfl, h.2.symm⟩, fun h => ⟨rfl, h.2.symm⟩⟩
      · rw [Function.update_of_ne hji, hs.version, hnone]
        exact iff_of_false (fun h => nomatch h.1) fun h => hji h.1.symm
    · by_cases hji : j = i
      · subst hji
        rw [Function.update_self, Option.some_inj, Prod.mk.injEq]
        -- Another session that has updated the job would have inserted its payload.
        exact iff_of_false (fun h => ht h.1.symm) fun h =>
          ht (hs.inserter_ext (hs.insertedKey_of_updatedJob h.1) hkey)
      · rw [Function.update_of_ne hji]
        exact hs.version j t' row

/-- A transaction ends without a trace. -/
theorem Consistent.finish (hs : Consistent b s) (t : τ) : Consistent b (s.finish t) := by
  have hmem : ∀ {row}, row ∈ (s.finish t).log ↔ row ∈ s.log ∧ row.writer ≠ some t := by
    intro row
    rw [QueueDb.finish, List.mem_filter, decide_eq_true_eq]
  refine ⟨?_, ?_, fun key => ?_, fun row hrow => hs.worker row (hmem.mp hrow).1, ?_,
    fun i t' row => ?_, fun key => ?_, fun row hrow => hs.owned row (hmem.mp hrow).1⟩
  · exact forall_session (p := fun _ x => x.payload = x.id.map b.payload) rfl
      fun t' _ => hs.payload t'
  · exact forall_session (p := fun _ x => ∀ i, x.id = some i → i ∈ b.ids) nofun
      fun t' _ => hs.mem t'
  · refine forall_session (p := fun t' x => (∃ row ∈ (s.finish t).log, row.dedupe_key = key ∧
      row.writer = some t') ↔ x.insertedKey = some key) ?_ fun t' ht => ?_
    · refine iff_of_false ?_ nofun
      rintro ⟨row, hrow, -, hwriter⟩
      exact (hmem.mp hrow).2 hwriter
    · rw [← hs.inserted]
      constructor
      · rintro ⟨row, hrow, h⟩
        exact ⟨row, (hmem.mp hrow).1, h⟩
      · rintro ⟨row, hrow, hkey, hwriter⟩
        refine ⟨row, hmem.mpr ⟨hrow, ?_⟩, hkey, hwriter⟩
        rw [hwriter, ne_eq, Option.some_inj]
        exact ht
  · exact hs.nodup.sublist (List.filter_sublist.map _)
  · refine forall_session (p := fun t' x => (s.version i).filter (fun v => v.1 ≠ t) =
      some (t', row) ↔ x.updatedJob = some i ∧ row = doneRow b t') ?_ (fun t' ht => ?_) t'
    · rw [Option.filter_eq_some_iff]
      exact iff_of_false (fun h => by simpa using h.2) fun h => nomatch h.1
    · rw [Option.filter_eq_some_iff, hs.version, decide_eq_true_eq]
      exact and_iff_left ht
  · refine Iff.trans ?_ (hs.logged key)
    rw [mem_keys, mem_keys]
    constructor
    · rintro ⟨row, hrow, h⟩
      exact ⟨row, (hmem.mp hrow).1, h⟩
    · rintro ⟨row, hrow, hkey, hwriter⟩
      exact ⟨row, hmem.mpr ⟨hrow, by rw [hwriter]; nofun⟩, hkey, hwriter⟩

omit [DecidableEq τ] in
/-- The session that has inserted the payload of a job has claimed that job. -/
theorem Consistent.inserter (hs : Consistent b s) {i : ℕ} (hi : i ∈ b.ids) {t : τ}
    (h : (s.session t).insertedKey = some (b.payload i)) :
    (s.session t).id = some i ∧ (s.session t).place ≠ .selected := by
  obtain ⟨hkey, hplace⟩ := Session.insertedKey_eq_some h
  have hpayload := hs.payload t
  rw [hkey, eq_comm, Option.map_eq_some_iff] at hpayload
  obtain ⟨j, hj, heq⟩ := hpayload
  -- Jobs with the same payload are the same.
  obtain rfl := b.distinct j (hs.mem t j hj) i hi heq
  exact ⟨hj, hplace⟩

omit [DecidableEq τ] in
/-- A session that has come to its commit has updated the job whose payload it has inserted. -/
theorem Consistent.updatedJob_iff (hs : Consistent b s)
    (hupdated : (s.session t).place = .updated) {i : ℕ} (hi : i ∈ b.ids) :
    (s.session t).updatedJob = some i ↔ (s.session t).insertedKey = some (b.payload i) := by
  refine ⟨hs.insertedKey_of_updatedJob, fun h => ?_⟩
  rw [Session.updatedJob, hupdated]
  exact (hs.inserter hi h).1

/-- **A transaction commits**: the key it has inserted joins the log, and the job it has updated is
done. -/
theorem Consistent.commit (hs : Consistent b s) (hupdated : (s.session t).place = .updated) :
    Consistent b (s.commit t) := by
  have hf := hs.finish t
  have hread := hs.read_eq t
  have hmem {row : LogRow τ} (hrow : row ∈ (s.commit t).log) :
      ∃ old ∈ s.log, old.published t = row := by
    rwa [log_commit, List.mem_map] at hrow
  refine ⟨hf.payload, hf.mem, fun key => ?_, fun row hrow t' hwriter => ?_, ?_, hf.version,
    fun key => ?_, fun row hrow hwriter i hi hkey => ?_⟩
  · refine forall_session (p := fun t' x => (∃ row ∈ (s.commit t).log, row.dedupe_key = key ∧
      row.writer = some t') ↔ x.insertedKey = some key) ?_ fun t' ht => ?_
    · refine iff_of_false ?_ nofun
      rw [exists_log_commit]
      rintro ⟨row, -, -, hwriter⟩
      exact (writer_published_eq_some.mp hwriter).2 rfl
    · show _ ↔ (s.session t').insertedKey = some key
      rw [← hs.inserted, exists_log_commit]
      simp only [dedupe_key_published, writer_published_eq_some, and_iff_left ht]
  · obtain ⟨old, hold, rfl⟩ := hmem hrow
    rw [worker_published]
    exact hs.worker old hold t' (writer_published_eq_some.mp hwriter).1
  · rw [log_commit, List.map_map]
    have hkeys : LogRow.dedupe_key ∘ (fun row => row.published t) = LogRow.dedupe_key (τ := τ) :=
      funext fun row => dedupe_key_published
    rw [hkeys]
    exact hs.nodup
  · show _ ↔ ∃ i ∈ b.ids, (s.read t i).state = .DONE ∧ b.payload i = key
    rw [mem_keys_commit, hs.inserted, hs.logged]
    constructor
    · rintro (⟨i, hi, hdone, rfl⟩ | hkey)
      · refine ⟨i, hi, ?_, rfl⟩
        rw [hread]
        split_ifs
        · rfl
        · exact hdone
      · obtain ⟨hpayload, -⟩ := Session.insertedKey_eq_some hkey
        rw [hs.payload, Option.map_eq_some_iff] at hpayload
        obtain ⟨i, hid, rfl⟩ := hpayload
        have hi := hs.mem t i hid
        refine ⟨i, hi, ?_, rfl⟩
        rw [hread, if_pos ((hs.updatedJob_iff hupdated hi).mpr hkey)]
        rfl
    · rintro ⟨i, hi, hdone, rfl⟩
      rw [hread] at hdone
      split_ifs at hdone with hjob
      · exact .inr (hs.insertedKey_of_updatedJob hjob)
      · exact .inl ⟨i, hi, hdone, rfl⟩
  · obtain ⟨old, hold, rfl⟩ := hmem hrow
    show (s.read t i).owner = _
    rw [dedupe_key_published] at hkey
    rw [worker_published, hread]
    rcases writer_published_eq_none.mp hwriter with hwriter | hwriter
    · -- The session has inserted another key, so that it has updated another job.
      have hjob : (s.session t).updatedJob ≠ some i := by
        intro hjob
        obtain ⟨row, hrow, hkey', hwriter'⟩ :=
          (hs.inserted _ t).mpr (hs.insertedKey_of_updatedJob hjob)
        rw [hs.row_ext hold hrow (hkey.symm.trans hkey'.symm), hwriter'] at hwriter
        cases hwriter
      rw [if_neg hjob]
      exact hs.owned old hold hwriter i hi hkey
    · have hinserted := (hs.inserted _ t).mp ⟨old, hold, hkey.symm, hwriter⟩
      rw [if_pos ((hs.updatedJob_iff hupdated hi).mpr hinserted), hs.worker old hold t hwriter]
      rfl

/-- **Every step keeps the invariant.** -/
theorem Consistent.step (hs : Consistent b s) (h : Step b mode s s') : Consistent b s' := by
  obtain ⟨t, statement, h⟩ := h
  cases moved_of_step (hs.payload t) h with
  | move hid hpayload hkey hjob =>
    refine hs.move (fun i hi => ?_) hpayload hkey hjob
    rcases hid with hid | hid
    · rw [hid] at hi
      cases hi
    · rw [hid] at hi
      exact hs.mem t i hi
  | claim hstarted hmem hoffers =>
    refine (hs.move (fun j hj => ?_) rfl ?_ ?_).relock _
    · rwa [← Option.some_inj.mp hj]
    · rw [Session.insertedKey, Session.insertedKey, hstarted]
    · rw [Session.updatedJob, Session.updatedJob, hstarted]
  | insert hselected hid hfresh => exact hs.insert hselected hid hfresh
  | update hinserted hid _ => exact (hs.update hinserted hid).relock _
  | finish => exact hs.finish t
  | commit hupdated => exact hs.commit hupdated

theorem consistent_of_reachable (h : Reachable b mode s) : Consistent b s := by
  induction h with
  | refl => exact consistent_initial b
  | tail _ hstep ih => exact ih.step hstep

/-- A job that is done stays done. -/
theorem done_of_step {i : ℕ} (hs : Consistent b s) (hdone : (s.queue i).state = .DONE)
    (h : Step b mode s s') : (s'.queue i).state = .DONE := by
  obtain ⟨t, statement, h⟩ := h
  cases moved_of_step (hs.payload t) h with
  | move | claim | insert | update | finish => exact hdone
  | commit _ =>
    show (s.read t i).state = .DONE
    rw [hs.read_eq]
    split_ifs
    · rfl
    · exact hdone

/-! ### The invariant of the locking mode -/

/-- Every session has locked the job it has claimed, which is not done. -/
def Held (s : QueueDb τ) : Prop :=
  ∀ t i, (s.session t).id = some i → s.lock i = some t ∧ (s.queue i).state = .READY

omit [DecidableEq τ] in
theorem Held.eq (hs : Held s) {t t' : τ} {i : ℕ} (ht : (s.session t).id = some i)
    (ht' : (s.session t').id = some i) : t = t' := by
  have hlock := (hs t i ht).1
  rw [(hs t' i ht').1] at hlock
  exact (Option.some_inj.mp hlock).symm

/-- A session moves on with its job, or without one. -/
theorem Held.move (hs : Held s) {x : Session} (hid : x.id = none ∨ x.id = (s.session t).id) :
    Held (s.setSession t x) := by
  refine forall_session (p := fun t' x => ∀ j, x.id = some j →
    s.lock j = some t' ∧ (s.queue j).state = .READY) (fun j hj => ?_) fun t' _ => hs t'
  rcases hid with hid | hid
  · rw [hid] at hj
    cases hj
  · rw [hid] at hj
    exact hs t j hj

/-- A session locks the row of its job, which no other one has locked. -/
theorem Held.relock (hs : Held s) {i : ℕ} {x : Session} (hx : x.id = some i)
    (hfree : ∀ t', s.lock i = some t' → t' = t) (hready : (s.queue i).state = .READY) :
    Held { s.setSession t x with lock := Function.update s.lock i (some t) } := by
  refine forall_session (p := fun t' x => ∀ j, x.id = some j →
    Function.update s.lock i (some t) j = some t' ∧ (s.queue j).state = .READY)
    (fun j hj => ?_) fun t' ht j hj => ?_
  · rw [hx] at hj
    obtain rfl := Option.some_inj.mp hj
    exact ⟨Function.update_self .., hready⟩
  · obtain ⟨hlock, hready⟩ := hs t' j hj
    -- The job of another session is locked by that session.
    have hne : j ≠ i := by
      rintro rfl
      exact ht (hfree t' hlock)
    rw [Function.update_of_ne hne]
    exact ⟨hlock, hready⟩

theorem Held.finish (hs : Held s) (t : τ) : Held (s.finish t) := by
  refine forall_session (p := fun t' x => ∀ j, x.id = some j →
    (if s.lock j = some t then none else s.lock j) = some t' ∧ (s.queue j).state = .READY)
    (fun _ => nofun) fun t' ht j hj => ?_
  obtain ⟨hlock, hready⟩ := hs t' j hj
  refine ⟨?_, hready⟩
  rw [if_neg]
  · exact hlock
  · rw [hlock, Option.some_inj]
    exact ht

/-- **Every step keeps the jobs apart.** -/
theorem Held.step (hs : Held s) (hc : Consistent b s) (h : Step b .good s s') : Held s' := by
  obtain ⟨t, statement, h⟩ := h
  cases moved_of_step (hc.payload t) h with
  | move hid => exact hs.move hid
  | @claim i hstarted _ hoffers =>
    obtain ⟨hready, hlock⟩ := of_decide_eq_true hoffers
    -- The session has updated nothing yet, so it sees what is committed.
    have hjob : (s.session t).updatedJob ≠ some i := by
      rw [Session.updatedJob, hstarted]
      nofun
    rw [hc.read_eq, if_neg hjob] at hready
    refine hs.relock rfl (fun t' ht' => ?_) hready
    -- The job that the `SELECT` returns is locked by no other session.
    rcases hlock rfl with hnone | hself
    · rw [hnone] at ht'
      cases ht'
    · rw [hself] at ht'
      exact (Option.some_inj.mp ht').symm
  | insert => exact hs.move (.inr rfl)
  | update _ hid hfree => exact hs.relock hid hfree (hs t _ hid).2
  | finish => exact hs.finish t
  | commit _ =>
    intro t' j hj
    obtain ⟨hlock, hready⟩ := hs.finish t t' j hj
    refine ⟨hlock, ?_⟩
    -- The end of the transaction has unlocked the job it has updated.
    have hjob : (s.session t).updatedJob ≠ some j := by
      intro hjob
      have hid : (s.session t).id = some j := by
        unfold Session.updatedJob at hjob
        split at hjob
        · exact hjob
        · cases hjob
      change (if s.lock j = some t then none else s.lock j) = some t' at hlock
      rw [if_pos (hs t j hid).1] at hlock
      cases hlock
    show (s.read t j).state = .READY
    rw [hc.read_eq, if_neg hjob]
    exact hready

theorem held_of_reachable (h : Reachable b .good s) : Held s := by
  induction h with
  | refl => exact fun _ _ => nofun
  | tail hreach hstep ih => exact ih.step (consistent_of_reachable hreach) hstep

/-! ### The results -/

/-- The session is about to insert a key that is in the table, committed or not. -/
def Duplicates (s : QueueDb τ) (t : τ) : Prop :=
  (s.session t).place = .selected ∧ ∃ i key, (s.session t).id = some i ∧
    (s.session t).payload = some key ∧ ∃ row ∈ s.log, row.dedupe_key = key

omit [DecidableEq τ] in
/-- A session that holds its job inserts no duplicate. -/
theorem not_duplicates (hs : Held s) (hc : Consistent b s) (t : τ) : ¬ s.Duplicates t := by
  rintro ⟨hselected, i, key, hid, hkey, row, hrow, hduplicate⟩
  have hi := hc.mem t i hid
  obtain rfl : b.payload i = key := by
    have hpayload := hc.payload t
    rwa [hid, Option.map_some, hkey, Option.some_inj, eq_comm] at hpayload
  rcases hwriter : row.writer with _ | t'
  · obtain ⟨j, hj, hdone, hpayload⟩ :=
      (hc.logged _).mp (mem_keys.mpr ⟨row, hrow, hduplicate, hwriter⟩)
    obtain rfl := b.distinct j hj i hi hpayload
    rw [(hs t j hid).2] at hdone
    cases hdone
  · obtain ⟨hid', hplace⟩ :=
      hc.inserter hi ((hc.inserted _ t').mp ⟨row, hrow, hduplicate, hwriter⟩)
    rw [hs.eq hid' hid] at hplace
    exact hplace hselected

/-- A job that is done stays done, and nobody claims it. -/
theorem done_forever (h : Reachable b .good s) {i : ℕ} (hdone : (s.queue i).state = .DONE)
    (hlater : Relation.ReflTransGen (Step b .good) s s') :
    (s'.queue i).state = .DONE ∧ ∀ t, (s'.session t).id ≠ some i := by
  have hstate : (s'.queue i).state = .DONE := by
    induction hlater with
    | refl => exact hdone
    | tail hprefix hstep ih =>
      exact done_of_step (consistent_of_reachable (h.trans hprefix)) ih hstep
  refine ⟨hstate, fun t ht => ?_⟩
  rw [(held_of_reachable (h.trans hlater) t i ht).2] at hstate
  cases hstate

/-- **Every job is claimed once.** In every state of a run in which sessions claim jobs with
`FOR UPDATE SKIP LOCKED`: no two sessions hold one job; no job that is done is claimed from then on;
no session is about to insert a duplicate key; and the log has the payloads of the jobs that are
done, each once. -/
theorem claimed_once (h : Reachable b .good s) :
    (∀ t t' i, (s.session t).id = some i → (s.session t').id = some i → t = t') ∧
    (∀ i, (s.queue i).state = .DONE → ∀ s', Relation.ReflTransGen (Step b .good) s s' →
      (s'.queue i).state = .DONE ∧ ∀ t, (s'.session t).id ≠ some i) ∧
    (∀ t, ¬ s.Duplicates t) ∧
    s.keys.Nodup ∧
    ∀ key, key ∈ s.keys ↔ ∃ i ∈ b.ids, (s.queue i).state = .DONE ∧ b.payload i = key := by
  have hs := held_of_reachable h
  have hc := consistent_of_reachable h
  exact ⟨fun _ _ _ => hs.eq, fun _ hdone _ => done_forever h hdone, not_duplicates hs hc,
    hc.keys_nodup, hc.logged⟩

/-- Two jobs, and two workers with a session each. -/
def twoJobs : Bench (Fin 2) where
  ids := [1, 2]
  sorted := by decide
  payload i := "job-" ++ toString i
  distinct := by decide
  worker t := t + 1

/-- The second session skips the job that the first one has locked, and commits before it. -/
theorem claimed_once_two :
    ∃ s : QueueDb (Fin 2), Reachable twoJobs .good s ∧ (s.session 0).id = some 1 ∧
      s.keys = ["job-2"] ∧ (∀ t, ¬ s.Duplicates t) ∧
        ∀ key, key ∈ s.keys ↔
          ∃ i ∈ [1, 2], (s.queue i).state = .DONE ∧ twoJobs.payload i = key := by
  obtain ⟨s, hs⟩ : ∃ s, run twoJobs .good {} [(0, .start), (1, .start), (0, .select), (1, .select),
      (1, .insert), (1, .update), (1, .commit)] = some s := ⟨_, rfl⟩
  have hreach : Reachable twoJobs .good s := reachable_of_run _ hs
  obtain ⟨-, -, hduplicates, -, hlogged⟩ := claimed_once hreach
  cases hs
  exact ⟨_, hreach, rfl, rfl, hduplicates, hlogged⟩

/-- **Every job is logged once.** In every state of a run in which sessions read the queue without
locks: the log has the payloads of the jobs that are done, each once, and the owner of a job that is
done is the worker whose log row for it is committed. -/
theorem logged_once (h : Reachable b .bad s) :
    s.keys.Nodup ∧
    (∀ key, key ∈ s.keys ↔ ∃ i ∈ b.ids, (s.queue i).state = .DONE ∧ b.payload i = key) ∧
    ∀ i ∈ b.ids, (s.queue i).state = .DONE → ∃ row ∈ s.committed,
      row.dedupe_key = b.payload i ∧ (s.queue i).owner = some row.worker := by
  have hc := consistent_of_reachable h
  refine ⟨hc.keys_nodup, hc.logged, fun i hi hdone => ?_⟩
  obtain ⟨row, hrow, hkey⟩ := List.mem_map.mp ((hc.logged (b.payload i)).mpr ⟨i, hi, hdone, rfl⟩)
  obtain ⟨hmem, hwriter⟩ := List.mem_filter.mp hrow
  exact ⟨row, hrow, hkey, hc.owned row hmem (of_decide_eq_true hwriter) i hi hkey.symm⟩

/-- Both sessions read the same job; the one that inserts its key second fails. -/
theorem logged_once_two :
    ∃ s : QueueDb (Fin 2), Reachable twoJobs .bad s ∧ s.keys.Nodup ∧
      ∃ row ∈ s.committed, row.dedupe_key = "job-1" ∧ row.worker = 2 ∧
        (s.queue 1).owner = some row.worker := by
  obtain ⟨s, hs⟩ : ∃ s, run twoJobs .bad {} [(0, .start), (1, .start), (0, .select), (1, .select),
      (1, .insert), (1, .update), (1, .commit), (0, .insert)] = some s := ⟨_, rfl⟩
  have hreach : Reachable twoJobs .bad s := reachable_of_run _ hs
  obtain ⟨hnodup, -, howner⟩ := logged_once hreach
  cases hs
  obtain ⟨row, hrow, hkey, howner⟩ := howner 1 (by decide) rfl
  obtain rfl := List.mem_singleton.mp hrow
  exact ⟨_, hreach, hnodup, _, hrow, rfl, rfl, howner⟩

end QueueDb

end Laboratory.TxBatch
