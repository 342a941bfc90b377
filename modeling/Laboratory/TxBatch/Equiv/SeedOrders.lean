import Laboratory.TxBatch.SeedOrders
import Mathlib.Order.Interval.Finset.Nat

/-!
# Resumed seeding equals seeding in one go

`seedAll_eq`: whatever the targets and the chunk sizes of the calls are, and wherever they are
killed, the table holds the rows `row 1, …, row m`, each once, and a resumed call that is not killed
ends with as many rows as it has been asked for, if the shell and the database read the numbers of
every call alike.  `not_seeded_leadingZero`: they read a chunk of `010` rows differently, and the
call repeats rows.
-/

namespace Laboratory.TxBatch

/-! ### The numbers -/

theorem mem_nums_1m {n : ℕ} : n ∈ nums_1m ↔ 1 ≤ n ∧ n ≤ 1000000 := by
  unfold nums_1m digits
  simp only [Finset.mem_image, Finset.mem_product, Finset.mem_range, Prod.exists]
  constructor
  · rintro ⟨a, b, c, d, e, f, hdigits, rfl⟩
    omega
  · rintro ⟨hpos, hle⟩
    refine ⟨(n - 1) % 10, (n - 1) / 10 % 10, (n - 1) / 100 % 10, (n - 1) / 1000 % 10,
      (n - 1) / 10000 % 10, (n - 1) / 100000 % 10, ?_, ?_⟩
    · omega
    · omega

/-- The numbers of a chunk. -/
theorem filter_nums_1m {take : ℕ} (h : take ≤ 1000000) :
    nums_1m.filter (· ≤ take) = (Finset.range take).map ⟨(· + 1), Nat.succ_injective⟩ := by
  ext n
  rw [Finset.mem_filter, mem_nums_1m, Finset.mem_map]
  constructor
  · rintro ⟨⟨hpos, -⟩, hn⟩
    exact ⟨n - 1, Finset.mem_range.mpr (by omega), Nat.sub_add_cancel hpos⟩
  · rintro ⟨i, hi, rfl⟩
    have := Finset.mem_range.mp hi
    change (1 ≤ i + 1 ∧ i + 1 ≤ 1000000) ∧ i + 1 ≤ take
    omega

/-! ### The numbers of the arguments -/

/-- The shell and the database read the text alike. -/
def ReadsAlike (text : List Char) : Prop :=
  sqlNumber text < 2 ^ 63 ∧ (text.head? = some '0' → sqlNumber text < 8)

instance : DecidablePred ReadsAlike := fun _ => inferInstanceAs (Decidable (_ ∧ _))

theorem number_concat (base : ℕ) (text : List Char) (c : Char) :
    number base (text ++ [c]) = base * number base text + digit c := by
  rw [number, number, List.foldl_append]
  rfl

theorem digit_le_number {text : List Char} {c : Char} (h : c ∈ text) :
    digit c ≤ number 10 text := by
  induction text using List.reverseRecOn with
  | nil => exact absurd h List.not_mem_nil
  | append_singleton text d ih =>
    rw [number_concat]
    obtain h | rfl := List.mem_append.mp h |>.imp_right List.mem_singleton.mp
    · have := ih h
      omega
    · omega

theorem number_eight_le (text : List Char) : number 8 text ≤ number 10 text := by
  induction text using List.reverseRecOn with
  | nil => exact le_rfl
  | append_singleton text c ih =>
    rw [number_concat, number_concat]
    omega

/-- Octal digits make the same number to both bases only if the number is a digit itself. -/
theorem number_eight_eq_iff {text : List Char} (h : ∀ c ∈ text, digit c < 8) :
    number 8 text = number 10 text ↔ number 10 text < 8 := by
  induction text using List.reverseRecOn with
  | nil => decide
  | append_singleton text c ih =>
    have hdigit : digit c < 8 := h c List.mem_concat_self
    have hle := number_eight_le text
    rw [number_concat, number_concat]
    omega

/-- A number that the database reads wraps at 64 bits only if it does not fit. -/
theorem bmod_eq_self_iff {n m : ℕ} (h : n ≤ m) :
    Int.bmod n (2 ^ 64) = m ↔ m < 2 ^ 63 ∧ n = m := by
  constructor
  · intro hbmod
    have hlt : Int.bmod n (2 ^ 64) < 2 ^ 63 := Int.bmod_lt (by decide)
    have hm : m < 2 ^ 63 := by omega
    rw [Int.bmod_eq_of_le (by omega) (by omega)] at hbmod
    exact ⟨hm, by omega⟩
  · rintro ⟨hm, rfl⟩
    exact Int.bmod_eq_of_le (by omega) (by omega)

theorem arith_eq_some_iff {text : List Char} :
    arith text = some (sqlNumber text : ℤ) ↔ ReadsAlike text := by
  rw [ReadsAlike, arith.eq_def]
  split
  · rename_i rest
    have hnumber : sqlNumber ('0' :: rest) = number 10 rest := rfl
    rw [hnumber]
    split_ifs with hdigits
    · have hoctal : ∀ c ∈ rest, digit c < 8 := by simpa using hdigits
      rw [Option.some_inj, bmod_eq_self_iff (number_eight_le rest), number_eight_eq_iff hoctal]
      exact and_congr_right' ⟨fun h _ => h, fun h => h rfl⟩
    · -- A digit that is not octal is itself too large.
      have hlarge : ¬number 10 rest < 8 := by
        intro hlt
        refine hdigits (List.all_eq_true.mpr fun c hc => ?_)
        have := digit_le_number hc
        exact decide_eq_true (by omega)
      exact iff_of_false nofun fun h => hlarge (h.2 rfl)
  · rename_i hhead
    rw [Option.some_inj, sqlNumber, bmod_eq_self_iff le_rfl]
    refine and_congr_right' (iff_of_true rfl fun h => ?_)
    obtain ⟨rest, rfl⟩ := List.head?_eq_some_iff.mp h
    exact absurd rfl (hhead rest)

theorem arith_of_readsAlike {text : List Char} (h : ReadsAlike text) :
    arith text = some (sqlNumber text : ℤ) :=
  arith_eq_some_iff.mpr h

theorem cond_of_readsAlike {text : List Char} (h : ReadsAlike text) (p : ℤ → Bool) :
    cond text p = p (sqlNumber text) := by
  rw [cond, arith_of_readsAlike h, Option.elim_some]

/-- The shell and the database read the numbers of the call alike. -/
def Invocation.ReadsAlike (call : Invocation) : Prop :=
  TxBatch.ReadsAlike call.rows ∧ TxBatch.ReadsAlike call.chunk

instance : DecidablePred Invocation.ReadsAlike := fun _ => inferInstanceAs (Decidable (_ ∧ _))

/-! ### The rows -/

section

variable (days_span : ℕ+)

/-- The row with the number `g`. -/
def row (g : ℕ) : Order where
  amount := g % 1000 + 1
  status := if g % 5 = 0 then .CANCEL else .PAID
  created_at := g % days_span

/-- The rows `row 1, …, row m`, each once. -/
def seeded (m : ℕ) : Multiset Order := (Multiset.range m).map fun i => row days_span (i + 1)

@[simp]
theorem card_seeded (m : ℕ) : (seeded days_span m).card = m := by
  rw [seeded, Multiset.card_map, Multiset.card_range]

theorem insertOrders_eq {take : ℕ} (h : take ≤ 1000000) (offset : ℕ) (orders : Multiset Order) :
    insertOrders days_span offset take orders =
      orders + (Multiset.range take).map fun i => row days_span (offset + i + 1) := by
  have hselect : selectOrder days_span offset ∘ (· + 1) =
      fun i => row days_span (offset + i + 1) := by
    funext i
    have hnumber : i + 1 + offset = offset + i + 1 := by omega
    rw [Function.comp_apply, selectOrder, hnumber, row]
  rw [insertOrders, filter_nums_1m h, Finset.map_val, Finset.range_val, Multiset.map_map]
  change orders + (Multiset.range take).map (selectOrder days_span offset ∘ (· + 1)) = _
  rw [hselect]

/-- A chunk appends the rows that come next. -/
theorem insertOrders_seeded {take : ℕ} (h : take ≤ 1000000) (m : ℕ) :
    insertOrders days_span m take (seeded days_span m) = seeded days_span (m + take) := by
  rw [insertOrders_eq days_span h, seeded, seeded, Multiset.range_add, Multiset.map_add,
    Multiset.map_map]
  rfl

end

/-! ### The loop -/

section

variable {days_span : ℕ+} {rows chunk : List Char}

/-- A pass of the loop. -/
theorem chunkLoop_of_lt (hrows : ReadsAlike rows) (hchunk : ReadsAlike chunk)
    {inserts offset : ℕ} {orders : Multiset Order} (h : offset < sqlNumber rows) :
    let take := min (sqlNumber rows - offset) (sqlNumber chunk)
    chunkLoop days_span rows chunk (inserts + 1) offset orders =
      chunkLoop days_span rows chunk inserts (offset + take)
        (insertOrders days_span offset take orders) := by
  intro take
  have hremaining : (sqlNumber rows : ℤ) - offset = (sqlNumber rows - offset : ℕ) := by omega
  rw [chunkLoop, arith_of_readsAlike hrows, arith_of_readsAlike hchunk]
  simp only [Int.ofNat_lt, if_pos h, cond_of_readsAlike hchunk, hremaining, decide_eq_true_eq,
    ← Int.natCast_add, Int.toNat_natCast]
  split_ifs with hlt
  · rw [show take = sqlNumber rows - offset by omega]
  · rw [show take = sqlNumber chunk by omega]

theorem chunkLoop_of_le (hrows : ReadsAlike rows) {inserts offset : ℕ} {orders : Multiset Order}
    (h : sqlNumber rows ≤ offset) :
    chunkLoop days_span rows chunk inserts offset orders = (orders, .done) := by
  cases inserts with
  | zero =>
    rw [chunkLoop, cond_of_readsAlike hrows, if_neg (by simpa using h)]
  | succ inserts =>
    rw [chunkLoop, arith_of_readsAlike hrows]
    exact if_neg (by omega)

/-- **Wherever the loop is killed**, the table holds the rows up to some number; where it is done,
up to the target. -/
theorem chunkLoop_seeded (hrows : ReadsAlike rows) (hchunk : ReadsAlike chunk)
    (h : sqlNumber chunk ≤ 1000000) (inserts offset : ℕ) :
    ∃ m, (chunkLoop days_span rows chunk inserts offset (seeded days_span offset)).1 =
        seeded days_span m ∧
      ((chunkLoop days_span rows chunk inserts offset (seeded days_span offset)).2 = .done →
        m = max offset (sqlNumber rows)) := by
  induction inserts generalizing offset with
  | zero =>
    refine ⟨offset, ?_⟩
    rw [chunkLoop, cond_of_readsAlike hrows]
    -- The call is killed here, or there was nothing left to do.
    split_ifs with hlt
    · exact ⟨rfl, nofun⟩
    · have hge : sqlNumber rows ≤ offset := by simpa using hlt
      exact ⟨rfl, fun _ => by omega⟩
  | succ inserts ih =>
    by_cases hlt : offset < sqlNumber rows
    · rw [chunkLoop_of_lt hrows hchunk hlt, insertOrders_seeded days_span (by omega)]
      obtain ⟨m, hm, hdone⟩ := ih (offset + min (sqlNumber rows - offset) (sqlNumber chunk))
      refine ⟨m, hm, fun h => ?_⟩
      rw [hdone h]
      omega
    · rw [chunkLoop_of_le hrows (by omega)]
      exact ⟨offset, rfl, fun _ => by omega⟩

/-- The loop ends: every chunk brings it nearer to the target. -/
theorem chunkLoop_done (hrows : ReadsAlike rows) (hchunk : ReadsAlike chunk)
    (h : 0 < sqlNumber chunk) (inserts offset : ℕ) (orders : Multiset Order)
    (hinserts : sqlNumber rows - offset ≤ inserts) :
    (chunkLoop days_span rows chunk inserts offset orders).2 = .done := by
  induction inserts generalizing offset orders with
  | zero => rw [chunkLoop_of_le hrows (by omega)]
  | succ inserts ih =>
    by_cases hlt : offset < sqlNumber rows
    · rw [chunkLoop_of_lt hrows hchunk hlt]
      exact ih _ _ (by omega)
    · rw [chunkLoop_of_le hrows (by omega)]

end

/-! ### The calls -/

/-- The rest of a call, from the offset it has found. -/
def restOfCall (days_span : ℕ+) (call : Invocation) (offset : ℕ) (orders : Multiset Order) :
    Multiset Order × Exit :=
  if cond call.rows (offset ≥ ·) then (orders, .done)
  else chunkLoop days_span call.rows call.chunk call.inserts offset orders

theorem restOfCall_seeded (days_span : ℕ+) {call : Invocation} (h : call.ReadsAlike)
    (hchunk : sqlNumber call.chunk ≤ 1000000) (offset : ℕ) :
    ∃ m, (restOfCall days_span call offset (seeded days_span offset)).1 = seeded days_span m ∧
      ((restOfCall days_span call offset (seeded days_span offset)).2 = .done →
        m = max offset (sqlNumber call.rows)) := by
  rw [restOfCall, cond_of_readsAlike h.1]
  split_ifs with hge
  · have hle : sqlNumber call.rows ≤ offset := by simpa using hge
    exact ⟨offset, rfl, fun _ => by omega⟩
  · exact chunkLoop_seeded h.1 h.2 hchunk call.inserts offset

theorem restOfCall_done (days_span : ℕ+) {call : Invocation} (h : call.ReadsAlike)
    (hchunk : 0 < sqlNumber call.chunk) (hinserts : sqlNumber call.rows ≤ call.inserts)
    (offset : ℕ) (orders : Multiset Order) :
    (restOfCall days_span call offset orders).2 = .done := by
  rw [restOfCall]
  split_ifs with hge
  · rfl
  · exact chunkLoop_done h.1 h.2 hchunk _ _ _ (by omega)

/-- The arguments that the script does not refuse. -/
structure Invocation.Valid (call : Invocation) : Prop where
  rows : isNumber call.rows
  chunk : isNumber call.chunk
  rows_pos : 0 < sqlNumber call.rows
  chunk_pos : 0 < sqlNumber call.chunk
  chunk_le : sqlNumber call.chunk ≤ 1000000

/-- A call whose arguments are refused leaves the table. -/
theorem seedOrdersLarge_of_not_valid (days_span : ℕ+) {call : Invocation} (h : call.ReadsAlike)
    (hvalid : ¬call.Valid) (orders : Multiset Order) :
    seedOrdersLarge days_span call orders = (orders, .refused) := by
  rw [seedOrdersLarge, cond_of_readsAlike h.1, cond_of_readsAlike h.2]
  by_cases hnumber : isNumber call.rows ∧ isNumber call.chunk
  · rw [if_neg (not_not.mpr hnumber)]
    simp only [decide_eq_true_eq, Bool.or_eq_true]
    by_cases hrows : (sqlNumber call.rows : ℤ) ≤ 0
    · rw [if_pos hrows]
    · rw [if_neg hrows, if_pos]
      by_contra hchunk
      exact hvalid ⟨hnumber.1, hnumber.2, by omega, by omega, by omega⟩
  · rw [if_pos hnumber]

theorem seedOrdersLarge_of_valid (days_span : ℕ+) {call : Invocation} (h : call.ReadsAlike)
    (hvalid : call.Valid) (orders : Multiset Order) :
    seedOrdersLarge days_span call orders =
      let orders := if call.mode = .truncate then 0 else orders
      if call.mode = .error_if_exists ∧ orders.card ≠ 0 then (orders, .refused)
      else restOfCall days_span call (if call.mode = .resume then orders.card else 0) orders := by
  have hrows : ¬(decide ((sqlNumber call.rows : ℤ) ≤ 0) = true) := by
    have := hvalid.rows_pos
    rw [decide_eq_true_eq]
    omega
  have hchunk : ¬(decide ((sqlNumber call.chunk : ℤ) ≤ 0) ||
      decide ((sqlNumber call.chunk : ℤ) > 1000000)) = true := by
    have := hvalid.chunk_pos
    have := hvalid.chunk_le
    simp only [Bool.or_eq_true, decide_eq_true_eq]
    omega
  rw [seedOrdersLarge, if_neg (not_not.mpr ⟨hvalid.rows, hvalid.chunk⟩), cond_of_readsAlike h.1,
    if_neg hrows, cond_of_readsAlike h.2, if_neg hchunk]
  rfl

/-- **One call**, from a table that has been seeded. -/
theorem seedOrdersLarge_seeded (days_span : ℕ+) {call : Invocation} (h : call.ReadsAlike) (m : ℕ) :
    ∃ m', (seedOrdersLarge days_span call (seeded days_span m)).1 = seeded days_span m' ∧
      (call.mode = .resume → (seedOrdersLarge days_span call (seeded days_span m)).2 = .done →
        m' = max m (sqlNumber call.rows)) := by
  by_cases hvalid : call.Valid
  · rw [seedOrdersLarge_of_valid days_span h hvalid]
    cases hmode : call.mode with
    | truncate =>
      -- `TRUNCATE` starts the table again from nothing.
      obtain ⟨m', hm', -⟩ := restOfCall_seeded days_span h hvalid.chunk_le 0
      exact ⟨m', hm', nofun⟩
    | resume =>
      simp only [reduceCtorEq, if_false, false_and, if_true, card_seeded]
      obtain ⟨m', hm', hdone⟩ := restOfCall_seeded days_span h hvalid.chunk_le m
      exact ⟨m', hm', fun _ => hdone⟩
    | error_if_exists =>
      simp only [reduceCtorEq, if_false, true_and, card_seeded]
      by_cases hm : m ≠ 0
      · rw [if_pos hm]
        exact ⟨m, rfl, nofun⟩
      · obtain rfl : m = 0 := not_not.mp hm
        obtain ⟨m', hm', -⟩ := restOfCall_seeded days_span h hvalid.chunk_le 0
        exact ⟨m', hm', nofun⟩
  · rw [seedOrdersLarge_of_not_valid days_span h hvalid]
    exact ⟨m, rfl, nofun⟩

/-- The rows after all calls. -/
theorem exists_seeded (days_span : ℕ+) {calls : List Invocation}
    (h : ∀ call ∈ calls, call.ReadsAlike) : ∃ m, seedAll days_span calls = seeded days_span m := by
  induction calls using List.reverseRecOn with
  | nil => exact ⟨0, rfl⟩
  | append_singleton calls call ih =>
    obtain ⟨m, hm⟩ := ih fun call hcall => h call (List.mem_append_left _ hcall)
    obtain ⟨m', hm', -⟩ :=
      seedOrdersLarge_seeded days_span (h call (List.mem_append_right _ List.mem_cons_self)) m
    refine ⟨m', ?_⟩
    rw [seedAll, List.foldl_append]
    change (seedOrdersLarge days_span call (seedAll days_span calls)).1 = _
    rw [hm, hm']

/-- **The table after any calls whose numbers the shell and the database read alike** holds the rows
up to its size, each once.  A further such call that resumes is done once it comes to enough
`INSERT` statements, and if it is done the size is its target, or what it was before. -/
theorem seedAll_eq (days_span : ℕ+) (calls : List Invocation)
    (h : ∀ call ∈ calls, call.ReadsAlike) :
    let orders := seedAll days_span calls
    orders = seeded days_span orders.card ∧
      ∀ call : Invocation, call.ReadsAlike → call.Valid → call.mode = .resume →
        (∃ enough, ∀ inserts ≥ enough,
          (seedOrdersLarge days_span { call with inserts } orders).2 = .done) ∧
        ((seedOrdersLarge days_span call orders).2 = .done →
          (seedOrdersLarge days_span call orders).1.card =
            max orders.card (sqlNumber call.rows)) := by
  intro orders
  obtain ⟨m, hm⟩ := exists_seeded days_span h
  have horders : orders = seeded days_span m := hm
  refine ⟨by rw [horders, card_seeded], ?_⟩
  intro call halike hvalid hmode
  refine ⟨⟨sqlNumber call.rows, fun inserts hinserts => ?_⟩, fun hdone => ?_⟩
  · have halike' : Invocation.ReadsAlike { call with inserts } := halike
    have hvalid' : Invocation.Valid { call with inserts } := { hvalid with }
    rw [seedOrdersLarge_of_valid days_span halike' hvalid']
    simp only [hmode, reduceCtorEq, if_false, false_and, if_true]
    exact restOfCall_done days_span halike' hvalid.chunk_pos hinserts _ _
  · -- A call that resumes goes on from the count, which is the first number not seeded.
    rw [horders] at hdone ⊢
    obtain ⟨m', hm', hmax⟩ := seedOrdersLarge_seeded days_span halike m
    rw [hm', card_seeded, card_seeded]
    exact hmax hmode hdone

/-- A call for seven rows in chunks of three is killed after its first `INSERT`; the call that
resumes it ends with seven rows. -/
theorem seedAll_seven :
    let orders := seedAll 30 [⟨['7'], ['3'], .resume, 1⟩]
    orders = seeded 30 3 ∧
      (seedOrdersLarge 30 ⟨['7'], ['3'], .resume, 2⟩ orders).1.card = 7 := by
  have hthree : seedAll 30 [⟨['7'], ['3'], .resume, 1⟩] = seeded 30 3 :=
    insertOrders_seeded 30 (by decide) 0
  have hdone : (seedOrdersLarge 30 ⟨['7'], ['3'], .resume, 2⟩ (seeded 30 3)).2 = .done := rfl
  have h := ((seedAll_eq 30 [⟨['7'], ['3'], .resume, 1⟩] (by decide)).2
    ⟨['7'], ['3'], .resume, 2⟩ (by decide) ⟨rfl, rfl, by decide, by decide, by decide⟩ rfl).2
  intro orders
  rw [hthree] at h
  refine ⟨hthree, ?_⟩
  rw [show orders = seeded 30 3 from hthree, h hdone, card_seeded]
  rfl

/-- **A chunk with a leading zero**: the shell takes `010` for eight, the database for ten.  A call
for twenty rows in such chunks is done with twenty-four, and has the row `row 9` twice. -/
theorem not_seeded_leadingZero :
    let call : Invocation := ⟨['2', '0'], ['0', '1', '0'], .resume, 3⟩
    let (orders, exit) := seedOrdersLarge 30 call (seedAll 30 [])
    exit = .done ∧ orders.card = 24 ∧ orders ≠ seeded 30 24 ∧ orders.count (row 30 9) = 2 := by
  intro call
  have hrows : arith ['2', '0'] = some 20 := by decide
  have hchunk : arith ['0', '1', '0'] = some 8 := by decide
  have hsql : sqlNumber ['0', '1', '0'] = 10 := by decide
  have hnumber : isNumber ['2', '0'] ∧ isNumber ['0', '1', '0'] := by decide
  have horders : seedOrdersLarge 30 call (seedAll 30 []) =
      (insertOrders 30 16 4 (insertOrders 30 8 10 (insertOrders 30 0 10 0)), .done) := by
    simp [call, seedOrdersLarge, seedAll, chunkLoop, cond, hrows, hchunk, hsql, hnumber]
  have hfour : 4 ≤ 1000000 := by omega
  have hten : 10 ≤ 1000000 := by omega
  rw [horders, insertOrders_eq 30 hfour, insertOrders_eq 30 hten, insertOrders_eq 30 hten]
  refine ⟨rfl, rfl, fun h => ?_, rfl⟩
  have hcount := congrArg (Multiset.count (row 30 9)) h
  exact absurd hcount (by decide)

end Laboratory.TxBatch
