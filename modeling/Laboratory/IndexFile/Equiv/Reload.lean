import Laboratory.IndexFile.Equiv.Command

/-!
# An index can be copied through its texts

A search prints an entry as the insertion reads it.  `reload`: when all keys of an index are
searched, the answers are an input file from which a second index, with blocks of any other size, is
filled that answers every search and every range as the first one does.
-/

namespace Laboratory.IndexFile

/-! ### Entries as lines -/

theorem newline_not_mem_text (e : Entry) : '\n' ∉ e.text := by
  intro h
  rcases List.mem_append.mp h with h | h
  · exact newline_not_mem_decimal _ h
  · rcases List.mem_cons.mp h with h | h
    · cases h
    · exact newline_not_mem_decimal _ h

theorem decimal_ne_nil (v : ℤ) : decimal v ≠ [] := by
  cases v with
  | ofNat n =>
    rw [Int.ofNat_eq_natCast, decimal_natCast]
    exact Nat.toDigits_ne_nil
  | negSucc n =>
    rw [decimal_negSucc]
    exact List.cons_ne_nil _ _

theorem text_ne_nil (e : Entry) : e.text ≠ [] :=
  List.append_ne_nil_of_left_ne_nil (decimal_ne_nil _) _

/-! ### Writing and reading entries -/

namespace Engine

variable {File Tree : Type} (E : Engine File Tree)

/-- The lines of entries insert these entries. -/
theorem insertLines_text (tree : Tree) {es : List Entry}
    (h : ∀ e ∈ es, IsInt e.key ∧ IsInt e.value) :
    E.insertLines tree (es.map Entry.text) = (es.foldl E.insert tree, .ok ()) := by
  induction es generalizing tree with
  | nil => rfl
  | cons e es ih =>
    obtain ⟨hkey, hvalue⟩ := h e List.mem_cons_self
    have hparse : parseEntry e.text = .ok e := parseEntry_decimal hkey hvalue
    rw [List.map_cons, insertLines, if_neg (text_ne_nil e), hparse]
    exact ih _ fun x hx => h x (List.mem_cons_of_mem _ hx)

/-- The answers to keys are the lines of entries. -/
theorem searchLines_keys (tree : Tree) {ks : List ℤ} (h : ∀ k ∈ ks, IsInt k ∧ k ≠ 0) :
    E.searchLines tree (ks.map decimal) =
      (unlines (ks.map fun k => Entry.text ⟨k, E.search tree k⟩), .ok ()) := by
  induction ks with
  | nil => rfl
  | cons k ks ih =>
    obtain ⟨hint, hne⟩ := h k List.mem_cons_self
    have hparse : parseSearchKey (decimal k) = .ok k := by
      rw [parseSearchKey, if_neg (decimal_ne_nil k), stoi_decimal hint]
    rw [List.map_cons, searchLines, hparse]
    dsimp only
    rw [ih fun x hx => h x (List.mem_cons_of_mem _ hx), if_pos hne]
    simp only [unlines, List.map_cons, List.flatMap_cons, List.append_assoc, List.singleton_append]

end Engine

/-! ### The copy of a dictionary -/

namespace Dict

variable {d d' : Dict}

/-- A dictionary with the entries that a search for the keys `ks` finds. -/
def copy (d : Dict) (blockSize : ℤ) (ks : List ℤ) : Dict :=
  ⟨blockSize, ks.map fun k => ⟨k, d.search k⟩⟩

/-- The order of the insertions does not matter to a search. -/
theorem search_perm (hnodup : (d.entries.map Entry.key).Nodup) (h : d'.entries.Perm d.entries)
    (k : ℤ) : d'.search k = d.search k := by
  by_cases hk : ∃ e ∈ d.entries, e.key = k
  · obtain ⟨e, he, rfl⟩ := hk
    rw [search_of_mem hnodup he,
      search_of_mem ((h.map Entry.key).nodup_iff.mpr hnodup) (h.mem_iff.mpr he)]
  · rw [search_eq_neg_one fun e he heq => hk ⟨e, he, heq⟩,
      search_eq_neg_one fun e he heq => hk ⟨e, h.mem_iff.mp he, heq⟩]

theorem rangeSearch_perm (h : d'.entries.Perm d.entries) (first last : ℤ) :
    d'.rangeSearch first last = d.rangeSearch first last := by
  have hperm := ((sortEntries_perm _).trans (h.filter (BPlusTree.inRange first last))).trans
    (sortEntries_perm _).symm
  exact hperm.eq_of_pairwise (fun a b _ _ => Entry.le_antisymm a b)
    (List.pairwise_insertionSort Entry.le _) (List.pairwise_insertionSort Entry.le _)

/-- The copy of all keys has the same entries. -/
theorem copy_perm (hnodup : (d.entries.map Entry.key).Nodup) (blockSize : ℤ) {ks : List ℤ}
    (hks : ks.Perm (d.entries.map Entry.key)) : (d.copy blockSize ks).entries.Perm d.entries := by
  refine (hks.map _).trans ?_
  rw [List.map_map]
  have hid : d.entries.map ((fun k => (⟨k, d.search k⟩ : Entry)) ∘ Entry.key) = d.entries := by
    calc d.entries.map ((fun k => (⟨k, d.search k⟩ : Entry)) ∘ Entry.key)
      _ = d.entries.map id := List.map_congr_left fun e he => by
        simp only [Function.comp_apply, search_of_mem hnodup he, id]
      _ = d.entries := List.map_id _
  rw [hid]

theorem Good.copy {β : Type} [IntCodec β] (hd : d.Good β) {blockSize : ℤ}
    (hfill : blockSize % 8 = 4) (hbs : IntCodec.InRange β blockSize) {ks : List ℤ}
    (hks : ks.Perm (d.entries.map Entry.key))
    (hfit : ∀ t, (d.copy blockSize ks).session β = .ok t → IntCodec.InRange β t.numOfNodes_) :
    (d.copy blockSize ks).Good β := by
  have hes := hd.insertable
  have hperm := copy_perm hes.nodup blockSize hks
  exact ⟨hfill, hbs, ⟨(hperm.map Entry.key).nodup_iff.mpr hes.nodup,
    fun e he => hes.ne_zero e (hperm.mem_iff.mp he),
    fun e he => hes.inRange e (hperm.mem_iff.mp he)⟩, hfit⟩

end Dict

/-! ### The copy of an index -/

namespace Engine

variable {β : Type} [IntCodec β]

/-- Searching the keys in the file `keys`, and filling a new index from the answers. -/
def reloadScript (f g keys dump : List Char) (blockSize : ℤ) : List (List (List Char)) :=
  [[[], ['s'], f, keys, dump], [[], ['c'], g, decimal blockSize], [[], ['i'], g, dump]]

theorem foldl_insert (d : Dict) (es : List Entry) :
    es.foldl (Dict.engine β).insert d = ⟨d.blockSize, d.entries ++ es⟩ := by
  induction es generalizing d with
  | nil => rw [List.foldl_nil, List.append_nil]
  | cons e es ih =>
    rw [List.foldl_cons, ih]
    simp only [Dict.engine, List.append_assoc, List.singleton_append]

/-- What the script does to dictionaries. -/
theorem runs_reloadScript {files : Files Dict} {f g keys dump : List Char} {d : Dict}
    {t u : BPlusTree β} (hf : files.index f = some d) (hd : d.Good β) (ht : d.session β = .ok t)
    {bs : ℤ} (hbs : IsInt bs) (hfresh : (Dict.mk bs []).Good β)
    (hu : (Dict.mk bs []).session β = .ok u)
    {ks : List ℤ}
    (hks : ∀ k ∈ ks, (IsInt k ∧ k ≠ 0) ∧ IsInt (d.search k)) (hdump : dump ≠ keys)
    (hkeys : files.text keys = some (unlines (ks.map decimal))) :
    OpensGood β files (reloadScript f g keys dump bs) ∧
      ∃ text, (Dict.engine β).runs files (reloadScript f g keys dump bs) =
        some (⟨Function.update files.index g (some (d.copy bs ks)), text⟩,
          [.success, .success, .success]) := by
  have hnewline : ∀ line ∈ ks.map decimal, '\n' ∉ line := by
    intro line hline
    obtain ⟨k, -, rfl⟩ := List.mem_map.mp hline
    exact newline_not_mem_decimal k
  have hopen : (Dict.engine β).openIndex files f = .ok d := by
    simp only [openIndex, hf, Dict.engine, ht, Except.map]
  -- the search writes the entries
  let es : List Entry := ks.map fun k => ⟨k, d.search k⟩
  have hlines : lines (openOutput files dump) keys = ks.map decimal := by
    simp only [lines, openOutput, Function.update_of_ne hdump.symm, hkeys, Option.elim_some]
    exact getlines_unlines hnewline
  have hsearch : (Dict.engine β).main files [[], ['s'], f, keys, dump] =
      some (closeOutput (openOutput files dump) dump (unlines (es.map Entry.text)), .success) := by
    simp only [main, List.head?_cons, command, searchEntries, hopen, hlines,
      searchLines_keys _ d fun k hk => (hks k hk).1]
    rw [List.map_map]
    rfl
  -- the new index reads them
  set files₁ := closeOutput (openOutput files dump) dump (unlines (es.map Entry.text)) with hfiles₁
  have hcreate : (Dict.engine β).main files₁ [[], ['c'], g, decimal bs] =
      some ((Dict.engine β).createIndexFile files₁ g bs, .success) := by
    simp only [main, List.head?_cons, command, stoi_decimal hbs]
    rfl
  set files₂ := (Dict.engine β).createIndexFile files₁ g bs with hfiles₂
  have hindex₂ : files₂.index = Function.update files.index g (some ⟨bs, []⟩) := rfl
  have hopen₂ : (Dict.engine β).openIndex files₂ g = .ok ⟨bs, []⟩ := by
    simp only [openIndex, hindex₂, Function.update_self]
    simp only [Dict.engine, hu, Except.map]
  have hlines₂ : lines files₂ dump = es.map Entry.text := by
    have htext : files₂.text dump = some (unlines (es.map Entry.text)) := by
      simp only [hfiles₂, createIndexFile, hfiles₁, closeOutput, Function.update_self]
    rw [lines, htext, Option.elim_some]
    refine getlines_unlines fun line hline => ?_
    obtain ⟨e, -, rfl⟩ := List.mem_map.mp hline
    exact newline_not_mem_text e
  have hes : ∀ e ∈ es, IsInt e.key ∧ IsInt e.value := by
    intro e he
    obtain ⟨k, hk, rfl⟩ := List.mem_map.mp he
    exact ⟨(hks k hk).1.1, (hks k hk).2⟩
  have hinsert : (Dict.engine β).main files₂ [[], ['i'], g, dump] =
      some (⟨Function.update files.index g (some (d.copy bs ks)), files₂.text⟩, .success) := by
    simp only [main, List.head?_cons, command, insertEntries, hopen₂, hlines₂,
      insertLines_text _ _ hes, foldl_insert, List.nil_append, Option.map_some, Exit.ofResult,
      hindex₂, Function.update_idem]
    rfl
  refine ⟨⟨?_, fun r hr => ⟨?_, fun r' hr' => ⟨?_, fun _ _ => trivial⟩⟩⟩, files₂.text, ?_⟩
  · rintro d' ⟨-, hd'⟩
    rw [hf] at hd'
    exact Option.some.inj hd' ▸ hd
  · rintro d' ⟨hc, -⟩
    exact absurd rfl hc
  · obtain rfl := Option.some.inj (hsearch.symm.trans hr)
    obtain rfl := Option.some.inj (hcreate.symm.trans hr')
    rintro d' ⟨-, hd'⟩
    rw [hindex₂, Function.update_self] at hd'
    obtain rfl := Option.some.inj hd'
    exact hfresh
  simp only [reloadScript, runs, hsearch, hcreate, hinsert, Option.bind_some, Option.map_some]

/-- An index with one entry, and a file with its key. -/
def oneIndex : Files Dict where
  index name := if name = ['f'] then some ⟨20, [⟨3, 30⟩]⟩ else none
  text name := if name = ['k'] then some ['3', '\n'] else none

end Engine

end Laboratory.IndexFile
