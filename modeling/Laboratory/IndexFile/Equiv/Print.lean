import Laboratory.IndexFile.Equiv.Command
import Laboratory.IndexFile.Equiv.WellFormed

/-!
# What is printed of a tree

`print_insertAll`: the two lines of keys that `print` writes increase strictly; up to depth `1` the
last of them is the list of all keys that were inserted, and in a deeper tree, where both lines are
separators, no key stands in both.
-/

namespace Laboratory.IndexFile

namespace BPlusTree

variable {β : Type} [IntCodec β] {t : BPlusTree β} {d : ℕ} {lo hi b : ℤ}

/-- The keys in a node of height `d`. -/
def nodeKeys (t : BPlusTree β) : ℕ → ℤ → List ℤ
  | 0, b => (t.readLeaf b).entries.map Entry.key
  | _ + 1, b => (t.readInternal b).separators.map Entry.key

/-- The keys of a node increase and keep to its interval; separators stay above its lower end. -/
theorem OrderedBy.nodeKeys (h : t.OrderedBy Increasing d lo hi b) :
    (t.nodeKeys d b).Pairwise (· < ·) ∧ (∀ k ∈ t.nodeKeys d b, lo ≤ k ∧ k < hi) ∧
      (d ≠ 0 → ∀ k ∈ t.nodeKeys d b, lo < k) := by
  cases d with
  | zero =>
    obtain ⟨hlt, hbounds⟩ := h.2.1
    refine ⟨List.pairwise_map.mpr hlt, fun k hk => ?_, fun h0 => absurd rfl h0⟩
    obtain ⟨e, he, rfl⟩ := List.mem_map.mp hk
    exact hbounds e he
  | succ d =>
    have hmem : ∀ k ∈ t.nodeKeys (d + 1) b, lo < k ∧ k < hi := by
      intro k hk
      obtain ⟨s, hs, rfl⟩ := List.mem_map.mp hk
      exact h.1.mem_lt OrderedBy.lt s hs
    exact ⟨List.pairwise_map.mpr (h.1.pairwise OrderedBy.lt),
      fun k hk => ⟨(hmem k hk).1.le, (hmem k hk).2⟩, fun _ k hk => (hmem k hk).1⟩

/-- The keys of the children of a node increase. -/
theorem OrderedBy.childKeys (h : t.OrderedBy Increasing (d + 1) lo hi b) :
    ((t.readInternal b).children.flatMap (t.nodeKeys d)).Pairwise (· < ·) :=
  (h.1.flatMap id (fun ho => ⟨ho.nodeKeys.1, ho.nodeKeys.2.1⟩) OrderedBy.lt).1

/-- A key of an inner node is no key of its parent. -/
theorem OrderedBy.not_mem_childKeys (h : t.OrderedBy Increasing (d + 1) lo hi b) (hd : d ≠ 0)
    {k : ℤ} (hk : k ∈ t.nodeKeys (d + 1) b) :
    k ∉ (t.readInternal b).children.flatMap (t.nodeKeys d) := by
  obtain ⟨s, hs, rfl⟩ := List.mem_map.mp hk
  obtain ⟨ss, ts, hst⟩ := List.append_of_mem hs
  have hspan := h.1
  rw [hst, Separators.span_append_cons] at hspan
  rw [InternalNode.children, hst, Separators.children_append_cons, List.flatMap_append,
    List.mem_append]
  have hbounds := fun {lo hi x : ℤ} (ho : t.OrderedBy Increasing d lo hi x) =>
    (⟨ho.nodeKeys.1, ho.nodeKeys.2.1⟩ : (t.nodeKeys d x).Pairwise (· < ·) ∧
      ∀ k ∈ t.nodeKeys d x, lo ≤ id k ∧ id k < hi)
  rintro (hk | hk)
  · -- to the left of `s` the keys are smaller
    have hleft := (hspan.1.flatMap (f := t.nodeKeys d) id hbounds OrderedBy.lt).2 _ hk
    exact absurd hleft.2 (lt_irrefl _)
  · -- to the right of it they are greater, since separators are moved up and not copied
    obtain ⟨x, hx, hk⟩ := List.mem_flatMap.mp hk
    have hright : Separators.Span Entry.key Entry.value (fun lo' hi' x => s.key ≤ lo' ∧
        t.OrderedBy Increasing d lo' hi' x) s.key s.value ts hi :=
      hspan.2.imp_within OrderedBy.lt fun lo' hi' x hlo _ ho => ⟨hlo, ho⟩
    obtain ⟨i, hi⟩ := List.mem_iff_getElem?.mp hx
    obtain ⟨hlo, ho⟩ := hright.getElem? hi
    exact absurd (hlo.trans_lt (ho.nodeKeys.2.2 hd _ hk)) (lt_irrefl _)

theorem printedKeys_zero (h : t.depth_ = 0) :
    t.printedKeys = (t.nodeKeys 0 t.rootBID_, []) := by
  rw [printedKeys, if_pos h]
  rfl

theorem printedKeys_succ (h : t.depth_.toNat = d + 1) :
    t.printedKeys = (t.nodeKeys (d + 1) t.rootBID_,
      (t.readInternal t.rootBID_).children.flatMap (t.nodeKeys d)) := by
  rw [printedKeys, if_neg (by omega)]
  refine Prod.ext rfl (List.flatMap_congr fun c _ => ?_)
  cases d with
  | zero => exact if_pos (by omega)
  | succ d => exact if_neg (by omega)

theorem nodeKeys_zero (t : BPlusTree β) (b : ℤ) :
    t.nodeKeys 0 b = (t.treeEntries 0 b).map Entry.key := by
  rw [treeEntries, treeLeaves, List.flatMap_singleton]
  rfl

/-- The two lines of keys of a tree, by its depth. -/
structure Printed (t : BPlusTree β) (es : List Entry) (zero one : List ℤ) : Prop where
  zero_increasing : zero.Pairwise (· < ·)
  one_increasing : one.Pairwise (· < ·)
  depth_zero : t.depth_ = 0 → zero.Perm (es.map Entry.key) ∧ one = []
  depth_one : t.depth_ = 1 → one.Perm (es.map Entry.key)
  deeper : 2 ≤ t.depth_ → ∀ k ∈ zero, k ∉ one

theorem Holds.printed {es : List Entry} (h : t.Holds es) :
    t.Printed es t.printedKeys.1 t.printedKeys.2 := by
  obtain ⟨lo, hi, ho⟩ := h.ordered
  have hentries := h.entries.map Entry.key
  have hnonneg := h.depth_nonneg
  have hob := ho.orderedBy
  cases hd : t.depth_.toNat with
  | zero =>
    rw [hd] at hob hentries
    rw [printedKeys_zero (by omega)]
    refine ⟨hob.nodeKeys.1, List.Pairwise.nil, fun _ => ⟨?_, rfl⟩, by omega, by omega⟩
    rwa [nodeKeys_zero]
  | succ d =>
    rw [hd] at hob hentries
    rw [printedKeys_succ hd]
    refine ⟨hob.nodeKeys.1, hob.childKeys, by omega, fun h1 => ?_, fun h2 k hk => ?_⟩
    · obtain rfl : d = 0 := by omega
      rw [treeEntries_succ, List.map_flatMap] at hentries
      rwa [List.flatMap_congr fun c _ => nodeKeys_zero t c]
    · exact hob.not_mem_childKeys (by omega) hk

/-! ### The lines -/

theorem newline_not_mem_csv (values : List ℤ) : '\n' ∉ [','].intercalate (values.map decimal) := by
  induction values with
  | nil => exact List.not_mem_nil
  | cons v values ih =>
    cases values with
    | nil =>
      rw [List.map_singleton, List.intercalate_singleton]
      exact newline_not_mem_decimal v
    | cons w values =>
      rw [List.map_cons, List.map_cons, List.intercalate_cons_cons]
      intro h
      rcases List.mem_append.mp h with h | h
      · rcases List.mem_append.mp h with h | h
        · exact newline_not_mem_decimal v h
        · cases List.mem_singleton.mp h
      · exact ih h

theorem getlines_print (hn : t.numOfNodes_ ≠ 0) :
    getlines t.print =
      [['<', '0', '>'], [], [','].intercalate (t.printedKeys.1.map decimal), [], ['<', '1', '>'],
        [], [','].intercalate (t.printedKeys.2.map decimal)] := by
  have hlines : t.print = unlines [['<', '0', '>'], [],
      [','].intercalate (t.printedKeys.1.map decimal), [], ['<', '1', '>'], [],
      [','].intercalate (t.printedKeys.2.map decimal)] := by
    rw [print, if_neg hn]
    simp only [writeCsv, unlines, List.flatMap_cons, List.flatMap_nil, List.append_assoc,
      List.cons_append, List.nil_append, List.append_nil]
  rw [hlines]
  refine getlines_unlines ?_
  simp only [List.forall_mem_cons]
  exact ⟨by decide, by decide, newline_not_mem_csv _, by decide, by decide, by decide,
    newline_not_mem_csv _, fun _ h => absurd h List.not_mem_nil⟩

end BPlusTree

end Laboratory.IndexFile
