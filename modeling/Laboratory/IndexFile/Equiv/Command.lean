import Laboratory.IndexFile.ByteCodec
import Laboratory.IndexFile.Command
import Laboratory.IndexFile.Equiv.Lookup
import Laboratory.IndexFile.Equiv.Reopen

/-!
# The program serves a sorted map

`Dict` is an index in its own terms: a block size and the entries that were inserted, and
`dictionary` is the engine that answers from them.  `runs_refine`: a series of runs of the program
on index files writes what the same runs on dictionaries write, and says what they say, as long as
every index that is opened has blocks that its nodes fill, distinct keys other than `0`, and no
integer that is not an `int`.

Both engines run the same commands, so it is enough to compare their operations
(`Dict.getMetadata_file`, `Tracks`); `main_refines` goes through the commands once.
-/

namespace Laboratory.IndexFile

/-! ### Lines -/

/-- The text of a file with the given lines. -/
def unlines (lines : List (List Char)) : List Char :=
  lines.flatMap fun line => line ++ ['\n']

theorem getlines_append {line : List Char} (h : '\n' ∉ line) (rest : List Char) :
    getlines (line ++ '\n' :: rest) = line :: getlines rest := by
  induction line with
  | nil => rfl
  | cons c line ih =>
    have hc : c ≠ '\n' := fun heq => h (heq ▸ List.mem_cons_self)
    have hline : '\n' ∉ line := fun hmem => h (List.mem_cons_of_mem _ hmem)
    rw [List.cons_append, getlines, ih hline]
    exact hc

/-- **The lines of a file are read as they were written.** -/
theorem getlines_unlines {lines : List (List Char)} (h : ∀ line ∈ lines, '\n' ∉ line) :
    getlines (unlines lines) = lines := by
  induction lines with
  | nil => rfl
  | cons line lines ih =>
    have hunlines : unlines (line :: lines) = line ++ '\n' :: unlines lines := by
      simp only [unlines, List.flatMap_cons, List.append_assoc, List.singleton_append]
    rw [hunlines, getlines_append (h line List.mem_cons_self),
      ih fun l hl => h l (List.mem_cons_of_mem _ hl)]

theorem newline_not_mem_decimal (v : ℤ) : '\n' ∉ decimal v := by
  intro h
  rcases mem_decimal h with h | ⟨h, -⟩ <;> cases h

/-! ### Dictionaries -/

/-- A block size and the inserted entries, oldest first. -/
structure Dict where
  blockSize : ℤ
  entries : List Entry
  deriving DecidableEq, Repr

namespace Dict

/-- The value stored under `key`, or `-1`. -/
def search (d : Dict) (key : ℤ) : ℤ :=
  (d.entries.find? fun entry => entry.key == key).elim (-1) Entry.value

/-- The entries of the range, in the order of their keys. -/
def rangeSearch (d : Dict) (first last : ℤ) : List Entry :=
  sortEntries (d.entries.filter (BPlusTree.inRange first last))

variable (β : Type) [IntCodec β]

/-- The tree after one session that has inserted the entries. -/
def session (d : Dict) : Except String (BPlusTree β) :=
  (BPlusTree.getMetadata (createIndexFile d.blockSize)).map fun t => t.insertAll d.entries

/-- The index file of a dictionary. -/
def file (d : Dict) : BinFile β :=
  match d.session β with
  | .ok t => t.binFile_
  | .error _ => createIndexFile d.blockSize

/-- The engine of dictionaries.  What the tree looks like is not said by the entries, so `print` is
that of the session. -/
def engine : Engine Dict Dict where
  create blockSize := ⟨blockSize, []⟩
  getMetadata d := (d.session β).map fun _ => d
  binFile_ d := d
  insert d entry := ⟨d.blockSize, d.entries ++ [entry]⟩
  search := search
  rangeSearch d first last := some (d.rangeSearch first last)
  print d := (d.session β).toOption.elim [] BPlusTree.print

/-- Blocks that their nodes fill, distinct keys other than `0`, and integers that fit into the
file. -/
structure Good (d : Dict) : Prop where
  blockSize : d.blockSize % 8 = 4
  inRange_blockSize : IntCodec.InRange β d.blockSize
  insertable : BPlusTree.Insertable β d.entries
  inRange_numOfNodes : ∀ t, d.session β = .ok t → IntCodec.InRange β t.numOfNodes_

end Dict

/-! ### The operations of the two engines -/

namespace Dict

variable {β : Type} [IntCodec β] {d : Dict} {t : BPlusTree β}

theorem session_insert (h : d.session β = .ok t) (entry : Entry) :
    (Dict.mk d.blockSize (d.entries ++ [entry])).session β = .ok (t.insert entry) := by
  unfold session at h ⊢
  cases hopen : BPlusTree.getMetadata (createIndexFile d.blockSize : BinFile β) with
  | error what =>
    rw [hopen] at h
    cases h
  | ok t₀ =>
    rw [hopen] at h
    cases h
    simp only [Except.map, BPlusTree.insertAll, List.foldl_append, List.foldl_cons, List.foldl_nil]

theorem file_eq (h : d.session β = .ok t) : d.file β = t.binFile_ := by
  rw [file, h]

theorem file_create (blockSize : ℤ) :
    (Dict.mk blockSize []).file β = createIndexFile blockSize := by
  rw [file, session]
  cases hopen : BPlusTree.getMetadata (createIndexFile blockSize : BinFile β) with
  | error what => rfl
  | ok t₀ => exact (BPlusTree.getMetadata_eq_ok hopen).2.2.2.2.2

theorem exists_session (hbs : IntCodec.InRange β d.blockSize) (h : 12 ≤ d.blockSize) :
    ∃ t, d.session β = .ok t := by
  have hheader := (BPlusTree.createIndexFile_header hbs).1
  have hcap : ¬ (d.blockSize - UNIT).tdiv (2 * UNIT) ≤ 0 := by
    unfold UNIT
    rw [Int.tdiv_eq_ediv_of_nonneg (by omega)]
    omega
  unfold session BPlusTree.getMetadata
  dsimp only
  rw [hheader, if_neg hcap]
  exact ⟨_, rfl⟩

/-- A session of a dictionary represents its entries. -/
theorem Good.represents (hd : d.Good β) (h : d.session β = .ok t) :
    t.Represents d.entries ∧ t.Saved ∧ t.blockSize_ = d.blockSize := by
  have hbs := hd.inRange_blockSize
  have hfit := hd.inRange_numOfNodes t h
  unfold session at h
  cases hopen : BPlusTree.getMetadata (createIndexFile d.blockSize : BinFile β) with
  | error what =>
    rw [hopen] at h
    cases h
  | ok t₀ =>
    rw [hopen] at h
    cases h
    refine ⟨BPlusTree.represents_session hbs hopen hd.insertable hfit,
      BPlusTree.saved_insertAll (BPlusTree.represents_createIndexFile hbs hopen)
        (BPlusTree.saved_createIndexFile hbs hopen) hd.insertable hfit, ?_⟩
    rw [BPlusTree.blockSize_insertAll, (BPlusTree.getMetadata_eq_ok hopen).2.1,
      (BPlusTree.createIndexFile_header hbs).1]

/-- **Opening an index file** gives the tree that was closed. -/
theorem getMetadata_file (hd : d.Good β) :
    BPlusTree.getMetadata (d.file β) = d.session β := by
  cases h : d.session β with
  | error what =>
    rw [file, h]
    cases hopen : BPlusTree.getMetadata (createIndexFile d.blockSize : BinFile β) with
    | error what' =>
      rw [session, hopen] at h
      exact h
    | ok t₀ =>
      rw [session, hopen] at h
      cases h
  | ok t =>
    obtain ⟨hrep, hsaved, hbs⟩ := hd.represents h
    have hnum : t.reopenedNodes = t.numOfNodes_ :=
      if_pos (Or.inr (by rw [hbs]; exact hd.blockSize))
    rw [file_eq h, BPlusTree.getMetadata_saved hrep.geometry hsaved hrep.numOfNodes_nonneg, hnum]

/-- A dictionary without entries. -/
theorem good_empty {blockSize : ℤ} (hfill : blockSize % 8 = 4)
    (hbs : IntCodec.InRange β blockSize) : (Dict.mk blockSize []).Good β := by
  refine ⟨hfill, hbs, ⟨List.nodup_nil, fun e he => absurd he List.not_mem_nil,
    fun e he => absurd he List.not_mem_nil⟩, fun t ht => ?_⟩
  unfold session at ht
  cases hopen : BPlusTree.getMetadata (createIndexFile blockSize : BinFile β) with
  | error what =>
    rw [hopen] at ht
    cases ht
  | ok t₀ =>
    rw [hopen] at ht
    obtain rfl := Except.ok.inj ht
    show IntCodec.InRange β t₀.numOfNodes_
    rw [(BPlusTree.fresh_createIndexFile hbs hopen).2.1]
    exact IntCodec.inRange_zero

theorem search_of_mem (hnodup : (d.entries.map Entry.key).Nodup) {e : Entry} (he : e ∈ d.entries) :
    d.search e.key = e.value := by
  unfold search
  cases hfind : d.entries.find? fun x => x.key == e.key with
  | none =>
    have hno := List.find?_eq_none.mp hfind e he
    simp at hno
  | some x =>
    have hx := List.mem_of_find?_eq_some hfind
    have hkey : x.key = e.key := by simpa using List.find?_some hfind
    rw [List.inj_on_of_nodup_map hnodup hx he hkey]
    rfl

theorem search_eq_neg_one {k : ℤ} (h : ∀ e ∈ d.entries, e.key ≠ k) : d.search k = -1 := by
  have hnone : (d.entries.find? fun x => x.key == k) = none := by
    refine List.find?_eq_none.mpr fun e he => ?_
    simpa using h e he
  rw [search, hnone]
  rfl

theorem Good.search_eq (hd : d.Good β) (h : d.session β = .ok t) (key : ℤ) :
    t.search key = d.search key := by
  have hrep := BPlusTree.represents_iff.mp (hd.represents h).1
  by_cases hkey : ∃ e ∈ d.entries, e.key = key
  · obtain ⟨e, he, rfl⟩ := hkey
    rw [search_of_mem hd.insertable.nodup he]
    exact hrep.search_eq he
  · have hnone : ∀ e ∈ d.entries, e.key ≠ key := fun e he heq => hkey ⟨e, he, heq⟩
    rw [search_eq_neg_one hnone]
    exact hrep.search_eq_neg_one hnone

/-- Entries that are sorted and in the range are those of the range in order. -/
theorem Good.rangeSearch_eq (hd : d.Good β) (h : d.session β = .ok t) (first last : ℤ) {fuel : ℕ}
    (hfuel : t.numOfNodes_ < fuel) :
    t.rangeSearch fuel first last = some (d.rangeSearch first last) := by
  have hrep := BPlusTree.represents_iff.mp (hd.represents h).1
  obtain ⟨found, hfound, hperm⟩ :=
    (hrep.imp fun _ _ _ => BPlusTree.Increasing.nondecreasing).rangeSearch_perm first last hfuel
  have hlt := hrep.rangeSearch_pairwise first last hfuel hfound
  have hle : found.Pairwise Entry.le := hlt.imp fun h => Or.inl h
  have hsorted : (d.rangeSearch first last).Pairwise Entry.le :=
    List.pairwise_insertionSort Entry.le _
  rw [hfound]
  congr 1
  exact (hperm.trans (sortEntries_perm _).symm).eq_of_pairwise
    (fun a b _ _ => Entry.le_antisymm a b) hle hsorted

end Dict

/-! ### The commands -/

/-- The same files with other index files. -/
def Files.map {File File' : Type} (f : File → File') (files : Files File) : Files File' where
  index name := (files.index name).map f
  text := files.text

theorem Files.map_update {File File' : Type} (f : File → File') (files : Files File)
    (name : List Char) (file : File) :
    (Files.mk (Function.update files.index name (some file)) files.text).map f =
      ⟨Function.update (files.map f).index name (some (f file)), files.text⟩ := by
  refine congrArg (Files.mk · files.text) (funext fun name' => ?_)
  by_cases h : name' = name
  · subst h
    simp
  · simp [Function.update_of_ne h, Files.map]

namespace Engine

variable {β : Type} [IntCodec β] {d : Dict} {t : BPlusTree β} (fuel : ℕ)

/-- The loop of the insertions keeps tree and dictionary together, up to the line that stops it. -/
theorem insertLines_session (h : d.session β = .ok t) (lines : List (List Char)) :
    ∃ t', (bPlusTree β fuel).insertLines t lines =
        (t', ((Dict.engine β).insertLines d lines).2) ∧
      ((Dict.engine β).insertLines d lines).1.session β = .ok t' := by
  induction lines generalizing d t with
  | nil => exact ⟨t, rfl, h⟩
  | cons line rest ih =>
    by_cases hline : line = []
    · rw [insertLines, insertLines, if_pos hline, if_pos hline]
      exact ih h
    · rw [insertLines, insertLines, if_neg hline, if_neg hline]
      cases hparse : parseEntry line with
      | error e => exact ⟨t, rfl, h⟩
      | ok entry => exact ih (Dict.session_insert h entry)

theorem searchLines_session (hd : d.Good β) (h : d.session β = .ok t) (lines : List (List Char)) :
    (bPlusTree β fuel).searchLines t lines = (Dict.engine β).searchLines d lines := by
  induction lines with
  | nil => rfl
  | cons line rest ih =>
    rw [searchLines, searchLines]
    cases hparse : parseSearchKey line with
    | error e => rfl
    | ok key =>
      have hkey : (bPlusTree β fuel).search t key = (Dict.engine β).search d key :=
        hd.search_eq h key
      simp only [ih, hkey]

theorem rangeLines_session (hd : d.Good β) (h : d.session β = .ok t)
    (hfuel : t.numOfNodes_ < fuel) (lines : List (List Char)) :
    (bPlusTree β fuel).rangeLines t lines = (Dict.engine β).rangeLines d lines := by
  induction lines with
  | nil => rfl
  | cons line rest ih =>
    rw [rangeLines, rangeLines]
    by_cases hline : line = []
    · rw [if_pos hline, if_pos hline]
      exact ih
    · rw [if_neg hline, if_neg hline]
      cases hparse : parseRange line with
      | error e => rfl
      | ok range =>
        have hrange : (bPlusTree β fuel).rangeSearch t range.1 range.2 =
            (Dict.engine β).rangeSearch d range.1 range.2 :=
          hd.rangeSearch_eq h range.1 range.2 hfuel
        simp only [ih, hrange]

/-- An index file is opened as its dictionary is. -/
theorem openIndex_session {files : Files Dict} {indexFile : List Char}
    (hgood : ∀ d, files.index indexFile = some d → d.Good β) :
    (∃ what, (Dict.engine β).openIndex files indexFile = .error what ∧
        (bPlusTree β fuel).openIndex (files.map (Dict.file β)) indexFile = .error what) ∨
      ∃ d t, files.index indexFile = some d ∧ d.session β = .ok t ∧
        (Dict.engine β).openIndex files indexFile = .ok d ∧
          (bPlusTree β fuel).openIndex (files.map (Dict.file β)) indexFile = .ok t := by
  unfold openIndex
  cases hfile : files.index indexFile with
  | none => exact .inl ⟨_, rfl, by simp only [Files.map, hfile, Option.map_none]⟩
  | some d =>
    have hopen : (bPlusTree β fuel).getMetadata (d.file β) = d.session β :=
      Dict.getMetadata_file (hgood d hfile)
    simp only [Files.map, hfile, Option.map_some, hopen]
    cases h : d.session β with
    | error what => exact .inl ⟨what, by simp only [Dict.engine, h, Except.map], rfl⟩
    | ok t => exact .inr ⟨d, t, rfl, h, by simp only [Dict.engine, h, Except.map], rfl⟩

/-- **One command** on index files does what it does on dictionaries. -/
theorem command_refines {files : Files Dict} {indexFile : List Char} (args : List (List Char))
    {cmd : Option Char}
    (hgood : cmd ≠ some 'c' → ∀ d, files.index indexFile = some d → d.Good β)
    (hfuel : ∀ d t, files.index indexFile = some d → d.session β = .ok t → t.numOfNodes_ < fuel) :
    (bPlusTree β fuel).command (files.map (Dict.file β)) indexFile args cmd =
      ((Dict.engine β).command files indexFile args cmd).map fun r =>
        (r.1.map (Dict.file β), r.2) := by
  unfold command
  split
  · -- `c`: a fresh file is that of a dictionary without entries
    cases args with
    | nil => rfl
    | cons blockSize rest =>
      dsimp only
      cases stoi blockSize with
      | error e => rfl
      | ok n =>
        have hfile : (Dict.mk n []).file β = (bPlusTree β fuel).create n := Dict.file_create n
        have hmap := Files.map_update (Dict.file β) files indexFile ⟨n, []⟩
        rw [hfile] at hmap
        simp only [Option.map_some, Option.some.injEq, Prod.mk.injEq, and_true]
        exact hmap.symm
  · cases args with
    | nil => rfl
    | cons inputFile rest =>
      simp only [insertEntries, Option.map_some, Option.some.injEq]
      obtain ⟨what, hd, ht⟩ | ⟨d, t, -, h, hd, ht⟩ :=
        openIndex_session fuel (hgood (by decide))
      · rw [hd, ht]
      · obtain ⟨t', hlines, h'⟩ := insertLines_session fuel h (lines files inputFile)
        have hfile := Dict.file_eq h'
        have hmap := Files.map_update (Dict.file β) files indexFile
          ((Dict.engine β).insertLines d (lines files inputFile)).1
        rw [hfile] at hmap
        have hsame : lines (files.map (Dict.file β)) inputFile = lines files inputFile := rfl
        rw [hd, ht]
        dsimp only
        rw [hsame, hlines]
        exact congrArg (·, _) hmap.symm
  · rcases args with _ | ⟨inputFile, _ | ⟨outputFile, rest⟩⟩
    · rfl
    · rfl
    · simp only [searchEntries, Option.map_some, Option.some.injEq]
      have hgood := hgood (by decide)
      obtain ⟨what, hd, ht⟩ | ⟨d, t, hfile, h, hd, ht⟩ :=
        openIndex_session fuel hgood
      · rw [hd, ht]
      · rw [hd, ht]
        dsimp only
        rw [searchLines_session fuel (hgood d hfile) h]
        rfl
  · rcases args with _ | ⟨inputFile, _ | ⟨outputFile, rest⟩⟩
    · rfl
    · rfl
    · simp only [rangeSearchEntries]
      have hgood := hgood (by decide)
      obtain ⟨what, hd, ht⟩ | ⟨d, t, hfile, h, hd, ht⟩ :=
        openIndex_session fuel hgood
      · rw [hd, ht]
        rfl
      · rw [hd, ht]
        dsimp only
        rw [rangeLines_session fuel (hgood d hfile) h (hfuel d t hfile h), Option.map_map]
        rfl
  · cases args with
    | nil => rfl
    | cons outputFile rest =>
      simp only [printIndex, Option.map_some, Option.some.injEq]
      have hgood := hgood (by decide)
      obtain ⟨what, hd, ht⟩ | ⟨d, t, hfile, h, hd, ht⟩ :=
        openIndex_session fuel hgood
      · rw [hd, ht]
      · have hprint : (Dict.engine β).print d = (bPlusTree β fuel).print t := by
          simp only [Dict.engine, h, Except.toOption, Option.elim_some]
          rfl
        rw [hd, ht]
        dsimp only
        rw [hprint]
        rfl
  · rfl

/-! ### Runs of the program -/

/-- The run `argv` opens the dictionary `d`. -/
def Opens (files : Files Dict) : List (List Char) → Dict → Prop
  | _ :: cmd :: indexFile :: _, d => cmd.head? ≠ some 'c' ∧ files.index indexFile = some d
  | _, _ => False

/-- The runs open good dictionaries only. -/
def OpensGood (β : Type) [IntCodec β] (files : Files Dict) : List (List (List Char)) → Prop
  | [] => True
  | argv :: rest => (∀ d, Opens files argv d → d.Good β) ∧
      ∀ r, (Dict.engine β).main files argv = some r → OpensGood β r.1 rest

/-- **One run of the program**: it does to index files what it does to dictionaries, if a range
search may follow the chain of the leaves to its end. -/
theorem main_refines {files : Files Dict} {argv : List (List Char)}
    (hgood : ∀ d, Opens files argv d → d.Good β) :
    ∃ n, ∀ fuel, n ≤ fuel → (bPlusTree β fuel).main (files.map (Dict.file β)) argv =
      ((Dict.engine β).main files argv).map fun r => (r.1.map (Dict.file β), r.2) := by
  rcases argv with _ | ⟨prog, _ | ⟨cmd, _ | ⟨indexFile, args⟩⟩⟩
  · exact ⟨0, fun _ _ => rfl⟩
  · exact ⟨0, fun _ _ => rfl⟩
  · exact ⟨0, fun _ _ => rfl⟩
  · have hbound : ∃ n : ℕ, ∀ d t, files.index indexFile = some d → d.session β = .ok t →
        t.numOfNodes_ < n := by
      cases hfile : files.index indexFile with
      | none => exact ⟨0, fun _ _ h => by cases h⟩
      | some d =>
        cases h : d.session β with
        | error what =>
          refine ⟨0, fun d' t' hd ht => ?_⟩
          cases hd
          rw [h] at ht
          cases ht
        | ok t =>
          refine ⟨t.numOfNodes_.toNat + 1, fun d' t' hd ht => ?_⟩
          cases hd
          rw [h] at ht
          cases ht
          omega
    obtain ⟨n, hn⟩ := hbound
    refine ⟨n, fun fuel hfuel => ?_⟩
    have hcommand := command_refines fuel args
      (fun (hc : cmd.head? ≠ _) d hfile => hgood d ⟨hc, hfile⟩)
      (fun d t hfile h => (hn d t hfile h).trans_le (by exact_mod_cast hfuel))
    simp only [main, hcommand, Option.map_map]
    rfl

/-- One text file, `x`, and no index. -/
def oneText : Files Dict where
  index _ := none
  text name := if name = ['x'] then some ['3', '|', '3', '0'] else none

/-- An index is created, filled and searched. -/
def threeRuns : List (List (List Char)) :=
  [[[], ['c'], ['f'], ['2', '0']], [[], ['i'], ['f'], ['x']], [[], ['s'], ['f'], ['x'], ['o']]]

theorem opensGood_threeRuns : OpensGood UInt8 oneText threeRuns := by
  refine ⟨fun d h => absurd rfl h.1, fun r hr => ⟨fun d h => ?_, fun r' hr' =>
    ⟨fun d h => ?_, fun _ _ => trivial⟩⟩⟩
  · obtain rfl := Option.some.inj hr
    obtain rfl := Option.some.inj h.2
    exact Dict.good_empty rfl (by decide)
  · obtain rfl := Option.some.inj hr
    obtain rfl := Option.some.inj hr'
    obtain rfl := Option.some.inj h.2
    refine ⟨rfl, by decide, by decide, fun t ht => ?_⟩
    obtain rfl := Except.ok.inj ht
    decide

end Engine

end Laboratory.IndexFile
