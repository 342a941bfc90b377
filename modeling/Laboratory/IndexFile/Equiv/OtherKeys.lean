import Laboratory.Algorithm.SortedInsert
import Laboratory.IndexFile.ByteCodec
import Laboratory.IndexFile.Equiv.Overflow

/-!
# Insertions and searches for other keys

Equal keys may straddle leaves: entries with the promoted key that stay in the left leaf are out of
reach, since a descent goes to the right of an equal separator.  `search_insert_other`: an insertion
does not change the answer for another key, as long as no separator on the path has the promoted key
and the split leaves no better answer for it behind (`LeavesOthers`).

The leaves are `Enclosed` by their bounds, the upper one included.  `Answers` adds what a search for
one key finds, and is carried through an insertion by `RepresentsBy.insert_answers`.
-/

namespace Laboratory.IndexFile

namespace BPlusTree

variable {β : Type} [IntCodec β] {t : BPlusTree β} {e : Entry} {es : List Entry} {k : ℤ}

/-- A full leaf is not split at a key that a separator on the path to it has, nor between two
entries that answer differently for a key other than the inserted one. -/
def LeavesOthers (t : BPlusTree β) (e : Entry) : Prop :=
  t.Overflows e → ∀ s ∈ (t.moves e).head?,
    (∀ b ∈ (t.getPath e.key).nodes.dropLast, ∀ x ∈ (t.readInternal b).separators, x.key ≠ s.key) ∧
      ∀ x ∈ (t.stays e).find? fun x => x.key == s.key, s.key = e.key ∨ x.value = s.value

instance (t : BPlusTree β) (e : Entry) : Decidable (t.LeavesOthers e) :=
  inferInstanceAs (Decidable (_ → _))

/-- What a search for a key finds. -/
def answer (t : BPlusTree β) (k : ℤ) : Option Entry :=
  if t.numOfNodes_ = 0 then none
  else (t.readLeaf (t.getPath k).dest).entries.find? fun x => x.key == k

theorem search_eq_answer (t : BPlusTree β) (k : ℤ) :
    t.search k = ((t.answer k).map Entry.value).getD (-1) := by
  rw [search, answer]
  split_ifs
  · rfl
  · dsimp only
    cases (t.readLeaf (t.getPath k).dest).entries.find? fun x => x.key == k <;> rfl

/-! ### The leaves -/

/-- The entries of a leaf are in the order of `sortEntries`, with keys from `[lo, hi]`. -/
def Enclosed (lo hi : ℤ) (es : List Entry) : Prop :=
  es.Pairwise Entry.le ∧ ∀ e ∈ es, lo ≤ e.key ∧ e.key ≤ hi

/-- A leaf that is responsible for `k` answers `found`. -/
def Answers (k : ℤ) (found : Option Entry) (lo hi : ℤ) (es : List Entry) : Prop :=
  Enclosed lo hi es ∧ (lo ≤ k → k < hi → (es.find? fun x => x.key == k) = found)

omit [IntCodec β] in
theorem Increasing.enclosed {lo hi : ℤ} (h : Increasing lo hi es) : Enclosed lo hi es :=
  ⟨h.1.imp Or.inl, fun e he => ⟨(h.2 e he).1, (h.2 e he).2.le⟩⟩

omit [IntCodec β] in
theorem Enclosed.mono {lo lo' hi hi' : ℤ} (hlo : lo' ≤ lo) (hhi : hi ≤ hi')
    (h : Enclosed lo hi es) : Enclosed lo' hi' es :=
  ⟨h.1, fun e he => ⟨hlo.trans (h.2 e he).1, (h.2 e he).2.trans hhi⟩⟩

omit [IntCodec β] in
/-- A new entry does not change what a sorted leaf answers for another key. -/
theorem find?_sortEntries (hes : es.Pairwise Entry.le) (hk : k ≠ e.key) :
    ((sortEntries (es ++ [e])).find? fun x => x.key == k) = es.find? fun x => x.key == k := by
  rw [← List.head?_filter, ← List.head?_filter]
  congr 1
  -- both are the sorted entries with the key `k`
  apply List.Perm.eq_of_pairwise (fun a b _ _ => Entry.le_antisymm a b)
    ((List.pairwise_insertionSort Entry.le _).filter _) (hes.filter _)
  have hperm := (sortEntries_perm (es ++ [e])).filter fun x => x.key == k
  have hnot : ([e].filter fun x => x.key == k) = [] := by simpa using hk.symm
  rwa [List.filter_append, hnot, List.append_nil] at hperm

/-- The halves of a leaf answer as the leaf, when it is split at a key between its bounds. -/
theorem Answers.cut {found : Option Entry} {lo hi : ℤ} {l r : List Entry} {x : Entry}
    (h : Answers k found lo hi (l ++ x :: r)) (hlo : lo < x.key) (hhi : x.key < hi)
    (hbehind : ∀ y ∈ l.find? fun y => y.key == x.key, x.key ≠ k ∨ y.value = x.value) :
    Answers k found lo x.key l ∧ Answers k found x.key hi (x :: r) := by
  obtain ⟨⟨hpair, hbounds⟩, hfound⟩ := h
  obtain ⟨hpl, hpr, hlr⟩ := List.pairwise_append.mp hpair
  have hle : ∀ y ∈ l, y.key ≤ x.key := by
    intro y hy
    have := hlr y hy x (List.mem_cons_self ..)
    unfold Entry.le at this
    omega
  have hge : ∀ y ∈ x :: r, x.key ≤ y.key := by
    intro y hy
    rcases List.mem_cons.mp hy with rfl | hy
    · exact le_rfl
    · have := (List.pairwise_cons.mp hpr).1 y hy
      unfold Entry.le at this
      omega
  rw [List.find?_append] at hfound
  refine ⟨⟨⟨hpl, fun y hy => ⟨(hbounds y (List.mem_append_left _ hy)).1, hle y hy⟩⟩, ?_⟩,
    ⟨⟨hpr, fun y hy => ⟨hge y hy, (hbounds y (List.mem_append_right _ hy)).2⟩⟩, ?_⟩⟩
  · intro hk1 hk2
    have hnone : ((x :: r).find? fun y => y.key == k) = none := by
      rw [List.find?_eq_none]
      intro y hy
      have := hge y hy
      simp only [beq_iff_eq]
      omega
    rw [← hfound hk1 (hk2.trans hhi), hnone, Option.or_none]
  · intro hk1 hk2
    rw [← hfound (hlo.le.trans hk1) hk2]
    rcases hl : l.find? fun y => y.key == k with _ | y
    · rw [hl, Option.none_or]
    · -- an entry with the key `k` stays, so `k` is the promoted key
      have hy := List.find?_some hl
      rw [beq_iff_eq] at hy
      have hxk : x.key = k := le_antisymm hk1 (hy ▸ hle y (List.mem_of_find?_eq_some hl))
      have hyx : y = x := by
        rcases hbehind y (by rw [hxk]; exact hl) with hne | hval
        · exact absurd hxk hne
        · cases x
          cases y
          simp only [Entry.mk.injEq] at *
          omega
      rw [hl, List.find?_cons_of_pos (by simpa using hxk), hyx]
      rfl

/-- Some bounds are beyond all entries. -/
theorem exists_bounds (lo hi : ℤ) (es : List Entry) :
    ∃ lo' hi', lo' ≤ lo ∧ hi ≤ hi' ∧ ∀ x ∈ es, lo' < x.key ∧ x.key < hi' := by
  induction es with
  | nil => exact ⟨lo, hi, le_rfl, le_rfl, fun x hx => absurd hx List.not_mem_nil⟩
  | cons e es ih =>
    obtain ⟨lo', hi', hlo, hhi, hes⟩ := ih
    refine ⟨min lo' (e.key - 1), max hi' (e.key + 1), by omega, by omega, fun x hx => ?_⟩
    rcases List.mem_cons.mp hx with rfl | hx
    · omega
    · have := hes x hx
      omega

/-! ### The insertion -/

theorem HoldsBy.answer_eq {found : Option Entry} {lo hi : ℤ}
    (h : t.HoldsBy (Answers k found) lo hi es) (hlo : lo ≤ k) (hhi : k < hi) :
    t.answer k = found := by
  have hone := h.one_le_numOfNodes
  obtain ⟨hb1, hb2, -, hfound⟩ := h.dest hlo hhi
  rw [answer, if_neg (by omega)]
  exact hfound hb1 hb2

/-- Every leaf answers what the tree answers. -/
theorem HoldsBy.answers {lo hi : ℤ} (h : t.HoldsBy Enclosed lo hi es) (k : ℤ) :
    t.HoldsBy (Answers k (t.answer k)) lo hi es := by
  have hone := h.one_le_numOfNodes
  refine h.ordered_of (h.ordered.route (k := k) (fun lo hi hleaf => ⟨hleaf, fun _ _ => ?_⟩)
    fun lo hi es hk hleaf => ⟨hleaf, fun hlo hhi => absurd ⟨hlo, hhi⟩ hk⟩)
  rw [answer, if_neg (by omega), h.getPath_eq]

section Leaf

variable {Q : ℤ → ℤ → List Entry → Prop} {found : Option Entry} {lo hi : ℤ}

/-- The promoted key is strictly between the bounds of the leaf. -/
theorem LeavesOthers.bounds (hother : t.LeavesOthers e) (h : t.HoldsBy Q lo hi es)
    (hes : ∀ x ∈ e :: es, lo < x.key ∧ x.key < hi)
    (hcrowd : Enclosed (t.pathBounds e.key t.depth_.toNat lo hi t.rootBID_).1
      (t.pathBounds e.key t.depth_.toNat lo hi t.rootBID_).2 (t.crowd e))
    (hover : t.Overflows e) {x : Entry} (hx : x ∈ (t.moves e).head?) :
    (t.pathBounds e.key t.depth_.toNat lo hi t.rootBID_).1 < x.key ∧
      x.key < (t.pathBounds e.key t.depth_.toNat lo hi t.rootBID_).2 := by
  have hmem : x ∈ t.crowd e := List.mem_of_mem_drop (List.mem_of_mem_head? hx)
  have hin : x ∈ e :: es := by
    rcases mem_crowd.mp hmem with hx | rfl
    · exact List.mem_cons_of_mem _ (h.mem_of_mem_readLeaf hx)
    · exact List.mem_cons_self ..
  obtain ⟨hpath, -⟩ := hother hover x hx
  rw [h.getPath_eq] at hpath
  obtain ⟨h1, h2⟩ := t.pathBounds_mem e.key t.depth_.toNat lo hi t.rootBID_
  constructor
  · apply lt_of_le_of_ne (hcrowd.2 x hmem).1
    rcases h1 with h1 | ⟨b, hb, s, hs, h1⟩
    · rw [h1]
      exact (hes x hin).1.ne
    · rw [← h1]
      exact hpath b hb s hs
  · apply lt_of_le_of_ne (hcrowd.2 x hmem).2
    rcases h2 with h2 | ⟨b, hb, s, hs, h2⟩
    · rw [h2]
      exact (hes x hin).2.ne
    · rw [← h2]
      exact (hpath b hb s hs).symm

/-- The leaf of a new entry takes it in. -/
theorem LeavesOthers.leafTakes (hother : t.LeavesOthers e)
    (h : t.HoldsBy (Answers k found) lo hi es)
    (hes : ∀ x ∈ e :: es, lo < x.key ∧ x.key < hi) (hne : e.key ≠ 0) (hk : k ≠ e.key) :
    HoldsBy.LeafTakes t (Answers k found) lo hi e := by
  obtain ⟨he1, he2⟩ := hes e (List.mem_cons_self ..)
  obtain ⟨hb1, hb2, ⟨hsorted, hbounds⟩, hfound⟩ := h.dest he1.le he2
  have hcrowd : Answers k found (t.pathBounds e.key t.depth_.toNat lo hi t.rootBID_).1
      (t.pathBounds e.key t.depth_.toNat lo hi t.rootBID_).2 (t.crowd e) := by
    refine ⟨⟨List.pairwise_insertionSort Entry.le _, fun x hx => ?_⟩, fun hk1 hk2 => ?_⟩
    · rcases mem_crowd.mp hx with hx | rfl
      · exact hbounds x hx
      · exact ⟨hb1, hb2.le⟩
    · rw [crowd, find?_sortEntries hsorted hk]
      exact hfound hk1 hk2
  have hlive : ∀ es', es' ⊆ t.crowd e → live es' = es' := fun es' hsub =>
    live_eq_self fun x hx => key_ne_zero_of_mem_crowd hne (hsub hx)
  refine h.leafTakes (by rwa [hlive _ (List.Subset.refl _)]) fun x r hmoves hover => ?_
  have hx : x ∈ (t.moves e).head? := by rw [hmoves]; rfl
  have hcut := (t.stays_append_moves e).symm
  obtain ⟨hlt1, hlt2⟩ := hother.bounds h hes hcrowd.1 hover hx
  rw [hmoves] at hcut
  rw [hlive (t.stays e) (List.take_subset _ _),
    hlive (x :: r) (by rw [hcut]; exact List.subset_append_right ..)]
  rw [hcut] at hcrowd
  refine ⟨hlt1, hlt2, key_ne_zero_of_mem_crowd hne (by rw [hcut]; simp), hcrowd.cut hlt1 hlt2 ?_⟩
  intro y hy
  exact ((hother hover x hx).2 y hy).imp_left fun hxe hxk => hk (hxk.symm.trans hxe)

end Leaf

/-- **An insertion keeps the answer** for another key. -/
theorem RepresentsBy.insert_answers (h : t.RepresentsBy Enclosed es)
    (he : IntCodec.InRange β e.key ∧ IntCodec.InRange β e.value)
    (hfit : IntCodec.InRange β (t.insert e).numOfNodes_) (hne : e.key ≠ 0)
    (hother : t.LeavesOthers e) (hk : k ≠ e.key) :
    ∃ lo hi, lo ≤ k ∧ k < hi ∧ (t.insert e).HoldsBy (Answers k (t.answer k)) lo hi
      (live [e] ++ es) := by
  cases h with
  | empty g hn _ hdepth hes =>
    subst hes
    have hQ : Answers k (t.answer k) (min k e.key) (max k e.key + 1) (live [e]) := by
      rw [live_eq_self (by simpa using hne)]
      refine ⟨⟨List.pairwise_singleton _ _, fun x hx => ?_⟩, fun _ _ => ?_⟩
      · rw [List.mem_singleton.mp hx]
        omega
      · rw [answer, if_pos hn]
        simpa using hk.symm
    refine ⟨min k e.key, max k e.key + 1, by omega, by omega, ?_⟩
    rw [BPlusTree.insert, if_pos hn, List.append_nil]
    exact (holdsBy_insertEmpty g hdepth (by omega) hQ he).writeMetadata
  | @tree lo hi h =>
    -- the bounds of the root are widened to make room for both keys
    obtain ⟨lo', hi', hlo, hhi, hes⟩ := exists_bounds lo hi (⟨k, 0⟩ :: e :: es)
    have ho : t.OrderedBy Enclosed t.depth_.toNat lo' hi' t.rootBID_ :=
      h.ordered.mono (Q := Enclosed) (fun _ _ _ _ _ => Enclosed.mono) hlo hhi
    have hwide := (h.ordered_of ho).answers k
    have hes' : ∀ x ∈ e :: es, lo' < x.key ∧ x.key < hi' :=
      fun x hx => hes x (List.mem_cons_of_mem _ hx)
    obtain ⟨hk1, hk2⟩ := hes ⟨k, 0⟩ (List.mem_cons_self ..)
    obtain ⟨he1, he2⟩ := hes' e (List.mem_cons_self ..)
    exact ⟨lo', hi', hk1.le, hk2, hwide.insert he1.le he2 (hother.leafTakes hwide hes' hne hk)
      he hfit⟩

theorem RepresentsBy.insert_leavesOthers (h : t.RepresentsBy Enclosed es)
    (he : IntCodec.InRange β e.key ∧ IntCodec.InRange β e.value)
    (hfit : IntCodec.InRange β (t.insert e).numOfNodes_) (hne : e.key ≠ 0)
    (hother : t.LeavesOthers e) :
    (t.insert e).RepresentsBy Enclosed (live [e] ++ es) := by
  obtain ⟨lo, hi, -, -, h⟩ := h.insert_answers he hfit hne hother (show e.key + 1 ≠ e.key by omega)
  exact .tree (h.ordered_of (h.ordered.imp fun _ _ _ => And.left))

/-- **An insertion does not change a search for another key**, as long as no full leaf is split at
a key of a separator above it, or in front of a better answer. -/
theorem search_insert_other {bs : ℤ} (hbs : IntCodec.InRange β bs)
    (hopen : getMetadata (createIndexFile bs) = .ok t) (es : List Entry) (e : Entry)
    (hes : Entry.AllInRange β (es ++ [e]))
    (hfit : IntCodec.InRange β (t.insertAll (es ++ [e])).numOfNodes_)
    (hne : ∀ x ∈ es ++ [e], x.key ≠ 0) (hother : Throughout LeavesOthers t (es ++ [e]))
    (hk : k ≠ e.key) : ((t.insertAll es).insert e).search k = (t.insertAll es).search k := by
  have hempty := represents_iff.mp (represents_createIndexFile hbs hopen)
  have hbefore := inRange_insertAll hempty.numOfNodes_nonneg hfit
  obtain ⟨hrun, hlast⟩ := throughout_concat.mp hother
  have h := representsBy_insertAll (S := fun es => ∀ e ∈ es, e.key ≠ 0)
    (fun es e hes x hx => hes x (List.mem_append_left _ hx))
    (fun t es e h he hfit hes hother => h.insert_leavesOthers he hfit (hes e (by simp)) hother)
    (hempty.imp fun _ _ _ => Increasing.enclosed) (fun x hx => hes x (List.mem_append_left _ hx))
    hbefore (fun x hx => hne x (List.mem_append_left _ hx)) hrun
  rw [insertAll_concat] at hfit
  obtain ⟨lo, hi, hlo, hhi, hafter⟩ := h.insert_answers (hes e (by simp)) hfit
    (hne e (by simp)) hlast hk
  rw [search_eq_answer, search_eq_answer, hafter.answer_eq hlo hhi]

/-- Two entries per node: the third insertion splits the root leaf below a repeated key. -/
theorem search_insert_other_repeated :
    ((insertAll ⟨20, 0, 0, 2, 0, (createIndexFile 20 : BinFile UInt8)⟩
        [⟨3, 30⟩, ⟨3, 10⟩]).insert ⟨1, 20⟩).search 3 =
      (insertAll ⟨20, 0, 0, 2, 0, (createIndexFile 20 : BinFile UInt8)⟩
        [⟨3, 30⟩, ⟨3, 10⟩]).search 3 :=
  search_insert_other (by decide) (show getMetadata (createIndexFile 20) = .ok _ from rfl)
    [⟨3, 30⟩, ⟨3, 10⟩] ⟨1, 20⟩ (by decide) (by decide) (by decide) (by decide) (by decide)

/-- One entry per node: the repeated key `2` gives two separators the key `2`.  The last insertion
pushes the left one up to the root, where it comes behind the other and hides the key `3`. -/
theorem search_insert_hides :
    ∃ t : BPlusTree UInt8, getMetadata (createIndexFile 12) = .ok t ∧
      (t.insertAll [⟨1, 1⟩, ⟨2, 2⟩, ⟨2, 2⟩, ⟨3, 4⟩]).search 3 = 4 ∧
        ((t.insertAll [⟨1, 1⟩, ⟨2, 2⟩, ⟨2, 2⟩, ⟨3, 4⟩]).insert ⟨1, 1⟩).search 3 = -1 :=
  ⟨_, rfl, by decide +kernel, by decide +kernel⟩

end BPlusTree

end Laboratory.IndexFile
