import Laboratory.IndexFile.ByteCodec
import Laboratory.IndexFile.Equiv.Session

/-!
# Lookups answer like a sorted map

`getPathFrom_cuts`: the leaf at the end of a path cuts the leaves of the tree, keys below the
searched one to its left and keys above it to its right.  `search_eq` and `search_eq_neg_one`
follow from the leaf alone; `rangeSearch_eq` walks the chain from it, by `rangeLoop_eq`.
-/

namespace Laboratory.IndexFile

namespace BPlusTree

open Separators

variable {β : Type} [IntCodec β] {t : BPlusTree β}

theorem mem_leafEntries_flatMap {d : ℕ} {cs : List ℤ} {e : Entry}
    (he : e ∈ t.leafEntries (cs.flatMap (t.treeLeaves d))) : ∃ c ∈ cs, e ∈ t.treeEntries d c := by
  rw [leafEntries, List.flatMap_assoc] at he
  exact List.mem_flatMap.mp he

/-! ### The path -/

/-- **The leaf responsible for a key** cuts the leaves: smaller keys to its left, greater ones to
its right. -/
theorem getPathFrom_cuts {d : ℕ} {lo hi b : ℤ} (ho : t.OrderedBy Nondecreasing d lo hi b) (k : ℤ) :
    ∃ A B, t.treeLeaves d b = A ++ (t.getPathFrom k d b).dest :: B ∧
      (∀ e ∈ t.leafEntries A, e.key < k) ∧ ∀ e ∈ t.leafEntries B, k < e.key := by
  induction d generalizing lo hi b with
  | zero =>
    refine ⟨[], [], rfl, ?_, ?_⟩ <;>
    · intro e he
      cases he
  | succ d ih =>
    have hs := (List.takeWhile_append_dropWhile (p := fun s : Entry => s.key ≤ k)
      (l := (t.readInternal b).separators)).symm
    have hsorted := ho.1.pairwise OrderedBy.lt
    have hspan := ho.1
    rw [hs] at hspan
    obtain ⟨hfront, hchild, hback⟩ := (span_append _ _).mp hspan
    obtain ⟨A, B, hleaves, hA, hB⟩ := ih hchild
    have hkids : (t.readInternal b).children =
        frontChildren Entry.value (t.readInternal b).firstChild
            ((t.readInternal b).separators.takeWhile fun s => s.key ≤ k) ++
          lastChild Entry.value (t.readInternal b).firstChild
              ((t.readInternal b).separators.takeWhile fun s => s.key ≤ k) ::
            ((t.readInternal b).separators.dropWhile fun s => s.key ≤ k).map Entry.value := by
      rw [InternalNode.children, ← children_append, ← hs]
    refine ⟨(frontChildren Entry.value (t.readInternal b).firstChild
        ((t.readInternal b).separators.takeWhile fun s => s.key ≤ k)).flatMap (t.treeLeaves d) ++ A,
      B ++ (((t.readInternal b).separators.dropWhile fun s => s.key ≤ k).map
        Entry.value).flatMap (t.treeLeaves d), ?_, ?_, ?_⟩
    · rw [treeLeaves, hkids, List.flatMap_append, List.flatMap_cons, hleaves, ← descend_eq]
      simp only [List.append_assoc, List.cons_append]
      rfl
    · intro e he
      rw [leafEntries, List.flatMap_append] at he
      rcases List.mem_append.mp he with he | he
      · -- a child before the one followed ends at a separator not above `k`
        obtain ⟨c, hc, he⟩ := mem_leafEntries_flatMap he
        obtain ⟨s, hs, lo', hc⟩ := hfront.mem hc
        have hsk : s.key ≤ k := by simpa using List.mem_takeWhile_imp hs
        exact ((hc.treeEntries le_of_lt id).2 e he).2.trans_le hsk
      · exact hA e he
    · intro e he
      rw [leafEntries, List.flatMap_append] at he
      rcases List.mem_append.mp he with he | he
      · exact hB e he
      · -- a child after it starts at a separator above `k`
        obtain ⟨c, hc, he⟩ := mem_leafEntries_flatMap he
        obtain ⟨s, hs, hi', hc⟩ := hback.mem hc
        have hks := lt_of_mem_dropWhile Entry.key hsorted hs
        exact hks.trans_le ((hc.treeEntries le_of_lt id).2 e he).1

/-! ### One leaf -/

theorem find?_eq_some {es : List Entry} (hp : es.Pairwise fun x y => x.key < y.key) {e : Entry}
    (he : e ∈ es) : (es.find? fun x => x.key == e.key) = some e := by
  induction es with
  | nil => cases he
  | cons x es ih =>
    obtain ⟨hx, hp⟩ := List.pairwise_cons.mp hp
    rcases List.mem_cons.mp he with rfl | he
    · simp
    · have hne : (x.key == e.key) = false := by simpa using (hx e he).ne
      rw [List.find?_cons, hne]
      exact ih hp he

/-- The entries a range search wants. -/
def inRange (first last : ℤ) (e : Entry) : Bool := first ≤ e.key ∧ e.key ≤ last

/-- On sorted entries `collect` appends the wanted ones, and stops only when no later key is
wanted. -/
theorem collect_eq {es : List Entry} (hp : es.Pairwise fun x y => x.key ≤ y.key) (first last : ℤ)
    (acc : List Entry) :
    collect first last acc es =
      (acc ++ es.filter (inRange first last), es.all fun e => e.key ≤ last) := by
  induction es generalizing acc with
  | nil => simp [collect]
  | cons x es ih =>
    obtain ⟨hx, hp⟩ := List.pairwise_cons.mp hp
    rw [collect]
    by_cases hlast : x.key > last
    · -- the keys only grow, so none of them is wanted
      have hnone : (x :: es).filter (inRange first last) = [] := by
        rw [List.filter_eq_nil_iff]
        intro e he
        have hle : x.key ≤ e.key := by
          rcases List.mem_cons.mp he with rfl | he
          · exact le_rfl
          · exact hx e he
        simp only [inRange, decide_eq_true_eq]
        omega
      have hall : ((x :: es).all fun e => e.key ≤ last) = false := by
        rw [List.all_cons, decide_eq_false (by omega), Bool.false_and]
      rw [if_pos hlast, hnone, hall, List.append_nil]
    · have hall : ((x :: es).all fun e => decide (e.key ≤ last)) =
          es.all fun e => decide (e.key ≤ last) := by
        rw [List.all_cons, decide_eq_true (by omega), Bool.true_and]
      rw [if_neg hlast, hall]
      by_cases hfirst : x.key ≥ first
      · have hx : inRange first last x = true := by simp [inRange]; omega
        rw [if_pos hfirst, ih hp, List.filter_cons_of_pos hx, List.append_assoc]
        rfl
      · have hx : ¬ inRange first last x = true := by simp [inRange]; omega
        rw [if_neg hfirst, ih hp, List.filter_cons_of_neg hx]

/-! ### The chain -/

/-- **The walk along the chain** collects the wanted entries of the leaves it visits. -/
theorem rangeLoop_eq {a : ℤ} {ls : List ℤ} (hc : t.Chain a ls 0) (h0 : ∀ l ∈ ls, l ≠ 0)
    (hp : (t.leafEntries ls).Pairwise fun x y => x.key ≤ y.key) (first last : ℤ) {fuel : ℕ}
    (hfuel : ls.length < fuel) (acc : List Entry) :
    t.rangeLoop first last fuel acc a =
      some (acc ++ (t.leafEntries ls).filter (inRange first last)) := by
  induction ls generalizing a fuel acc with
  | nil =>
    obtain ⟨fuel, rfl⟩ : ∃ n, fuel = n + 1 := ⟨fuel - 1, by omega⟩
    have ha : a = 0 := hc
    rw [rangeLoop, if_pos ha]
    simp [leafEntries]
  | cons l ls ih =>
    obtain ⟨fuel, rfl⟩ : ∃ n, fuel = n + 1 := ⟨fuel - 1, by omega⟩
    obtain ⟨rfl, hc⟩ := hc
    have hcons : t.leafEntries (a :: ls) = (t.readLeaf a).entries ++ t.leafEntries ls := rfl
    rw [hcons] at hp ⊢
    obtain ⟨hleaf, hrest, hcross⟩ := List.pairwise_append.mp hp
    rw [rangeLoop, if_neg (h0 a (List.mem_cons_self ..))]
    dsimp only
    rw [collect_eq hleaf, List.filter_append, ← List.append_assoc]
    rcases hall : (t.readLeaf a).entries.all fun e => e.key ≤ last with _ | _
    · -- a key above `last` was met: the leaves that follow hold no smaller keys
      have hnone : (t.leafEntries ls).filter (inRange first last) = [] := by
        rw [List.filter_eq_nil_iff]
        intro e he
        obtain ⟨x, hx, hgt⟩ := List.all_eq_false.mp hall
        have hle := hcross x hx e he
        simp only [decide_eq_true_eq] at hgt
        simp only [inRange, decide_eq_true_eq]
        omega
      rw [hnone, List.append_nil]
    · exact ih hc (fun l hl => h0 l (List.mem_cons_of_mem _ hl)) hrest (by simp at hfuel; omega) _

/-! ### The tree -/

namespace HoldsBy

variable {lo hi : ℤ} {es : List Entry}

theorem nondecreasing (h : t.HoldsBy Increasing lo hi es) : t.HoldsBy Nondecreasing lo hi es :=
  h.ordered_of (h.ordered.imp fun _ _ _ => Increasing.nondecreasing)

theorem getPath_cuts (h : t.HoldsBy Nondecreasing lo hi es) (k : ℤ) :
    ∃ A B, t.treeLeaves t.depth_.toNat t.rootBID_ = A ++ (t.getPath k).dest :: B ∧
      (∀ e ∈ t.leafEntries A, e.key < k) ∧ ∀ e ∈ t.leafEntries B, k < e.key := by
  rw [h.getPath_eq]
  exact getPathFrom_cuts h.ordered k

theorem leafEntries_perm (h : t.HoldsBy Nondecreasing lo hi es) :
    (t.leafEntries (t.treeLeaves t.depth_.toNat t.rootBID_)).Perm es :=
  h.entries

/-- The entries of a key are all in the leaf responsible for it. -/
theorem mem_readLeaf (h : t.HoldsBy Nondecreasing lo hi es) {e : Entry} (he : e ∈ es) :
    e ∈ (t.readLeaf (t.getPath e.key).dest).entries := by
  obtain ⟨A, B, hleaves, hA, hB⟩ := h.getPath_cuts e.key
  have hmem := h.leafEntries_perm.mem_iff.mpr he
  rw [hleaves, leafEntries_append_cons, List.mem_append, List.mem_append] at hmem
  rcases hmem with hmem | hmem | hmem
  · exact absurd (hA _ hmem) (lt_irrefl _)
  · exact hmem
  · exact absurd (hB _ hmem) (lt_irrefl _)

theorem search_eq (h : t.HoldsBy Increasing lo hi es) {k v : ℤ} (hmem : ⟨k, v⟩ ∈ es) :
    t.search k = v := by
  have hone := h.one_le_numOfNodes
  have hdest := h.nondecreasing.mem_readLeaf hmem
  have hsorted := (h.ordered.treeEntries id id).1
  obtain ⟨A, B, hleaves, -, -⟩ := h.nondecreasing.getPath_cuts k
  change (t.leafEntries (t.treeLeaves t.depth_.toNat t.rootBID_)).Pairwise _ at hsorted
  rw [hleaves, leafEntries_append_cons] at hsorted
  have hleaf := (List.pairwise_append.mp (List.pairwise_append.mp hsorted).2.1).1
  rw [search, if_neg (by omega)]
  dsimp only
  rw [find?_eq_some hleaf hdest]

theorem search_eq_neg_one (h : t.HoldsBy Increasing lo hi es) {k : ℤ}
    (hk : ∀ e ∈ es, e.key ≠ k) : t.search k = -1 := by
  have hone := h.one_le_numOfNodes
  have hnone : ((t.readLeaf (t.getPath k).dest).entries.find? fun e => e.key == k) = none := by
    rw [List.find?_eq_none]
    intro e he
    simpa using hk e (h.mem_of_mem_readLeaf he)
  rw [search, if_neg (by omega)]
  dsimp only
  rw [hnone]

theorem rangeSearch_eq (h : t.HoldsBy Nondecreasing lo hi es) (first last : ℤ) {fuel : ℕ}
    (hfuel : t.numOfNodes_ < fuel) :
    t.rangeSearch fuel first last =
      some ((t.treeEntries t.depth_.toNat t.rootBID_).filter (inRange first last)) := by
  have hone := h.one_le_numOfNodes
  obtain ⟨A, B, hleaves, hA, -⟩ := h.getPath_cuts first
  have hsorted := (h.ordered.treeEntries le_of_lt id).1
  have hentries : t.treeEntries t.depth_.toNat t.rootBID_ =
      t.leafEntries A ++ t.leafEntries ((t.getPath first).dest :: B) := by
    rw [treeEntries, hleaves, List.flatMap_append]
    rfl
  rw [hentries] at hsorted ⊢
  -- the leaves before the first one visited hold keys below `first`
  have hnone : (t.leafEntries A).filter (inRange first last) = [] := by
    rw [List.filter_eq_nil_iff]
    intro e he
    have hlt := hA e he
    simp only [inRange, decide_eq_true_eq]
    omega
  have hsub := treeLeaves_sublist t t.depth_.toNat t.rootBID_
  have hlen := hsub.length_le
  rw [h.ids.length_eq, length_newIds, hleaves, List.length_append] at hlen
  have hchain := h.chain
  rw [hleaves, chain_append] at hchain
  obtain ⟨m, -, hchain⟩ := hchain
  have hm : m = (t.getPath first).dest := hchain.1
  rw [rangeSearch, if_neg (by omega), List.filter_append, hnone, List.nil_append, ← hm]
  rw [← hm] at hchain hsorted hlen hleaves
  have hloop := rangeLoop_eq hchain ?_ (List.pairwise_append.mp hsorted).2.1 first last
    (show (m :: B).length < fuel by omega) []
  · rw [hloop, List.nil_append]
  · intro l hl
    have hid := h.mem_ids.mp (hsub.subset (by rw [hleaves]; exact List.mem_append_right _ hl))
    omega

end HoldsBy

namespace RepresentsBy

variable {es : List Entry}

theorem search_eq (h : t.RepresentsBy Increasing es) {k v : ℤ} (hmem : ⟨k, v⟩ ∈ es) :
    t.search k = v := by
  cases h with
  | empty _ _ _ _ hes =>
    rw [hes] at hmem
    exact absurd hmem List.not_mem_nil
  | tree h => exact h.search_eq hmem

theorem search_eq_neg_one (h : t.RepresentsBy Increasing es) {k : ℤ} (hk : ∀ e ∈ es, e.key ≠ k) :
    t.search k = -1 := by
  cases h with
  | empty _ hn => rw [search, if_pos hn]
  | tree h => exact h.search_eq_neg_one hk

/-- A range search finds the entries in the range. -/
theorem rangeSearch_perm (h : t.RepresentsBy Nondecreasing es) (first last : ℤ) {fuel : ℕ}
    (hfuel : t.numOfNodes_ < fuel) :
    ∃ found, t.rangeSearch fuel first last = some found ∧
      found.Perm (es.filter (inRange first last)) := by
  cases h with
  | empty _ hn _ _ hes =>
    subst hes
    refine ⟨[], ?_, List.Perm.refl _⟩
    rw [rangeSearch, if_pos hn]
  | tree h => exact ⟨_, h.rangeSearch_eq first last hfuel, h.entries.filter _⟩

/-- Distinct keys are found in increasing order. -/
theorem rangeSearch_pairwise (h : t.RepresentsBy Increasing es) (first last : ℤ) {fuel : ℕ}
    (hfuel : t.numOfNodes_ < fuel) {found : List Entry}
    (hfound : t.rangeSearch fuel first last = some found) :
    found.Pairwise fun x y => x.key < y.key := by
  cases h with
  | empty _ hn =>
    rw [rangeSearch, if_pos hn] at hfound
    rw [← Option.some.inj hfound]
    exact List.Pairwise.nil
  | tree h =>
    rw [h.nondecreasing.rangeSearch_eq first last hfuel] at hfound
    rw [← Option.some.inj hfound]
    exact (h.ordered.treeEntries id id).1.filter _

end RepresentsBy

/-- **A session refines a sorted map**: after the insertion of `es` into a fresh index, `search` and
`rangeSearch` answer from `es`, as long as the entries and the number of nodes are `int`s. -/
theorem insertAll_refines {bs : ℤ} (hbs : IntCodec.InRange β bs) {t : BPlusTree β}
    (hopen : getMetadata (createIndexFile bs) = .ok t) {es : List Entry} (hes : Insertable β es)
    (hfit : IntCodec.InRange β (t.insertAll es).numOfNodes_) :
    (∀ k v, ⟨k, v⟩ ∈ es → (t.insertAll es).search k = v) ∧
      (∀ k, (∀ e ∈ es, e.key ≠ k) → (t.insertAll es).search k = -1) ∧
      ∀ first last (fuel : ℕ), (t.insertAll es).numOfNodes_ < fuel →
        ∃ found, (t.insertAll es).rangeSearch fuel first last = some found ∧
          found.Pairwise (fun x y => x.key < y.key) ∧
          ∀ e, e ∈ found ↔ e ∈ es ∧ first ≤ e.key ∧ e.key ≤ last := by
  have h := represents_iff.mp (represents_session hbs hopen hes hfit)
  refine ⟨fun k v => h.search_eq, fun k => h.search_eq_neg_one, fun first last fuel hfuel => ?_⟩
  obtain ⟨found, hfound, hperm⟩ :=
    (h.imp fun _ _ _ => Increasing.nondecreasing).rangeSearch_perm first last hfuel
  refine ⟨found, hfound, h.rangeSearch_pairwise first last hfuel hfound, fun e => ?_⟩
  rw [hperm.mem_iff, List.mem_filter]
  simp [inRange]

/-- Two entries per node: the third insertion splits the root leaf. -/
theorem insertAll_refines_split :
    (insertAll ⟨20, 0, 0, 2, 0, (createIndexFile 20 : BinFile UInt8)⟩
      [⟨3, 30⟩, ⟨1, 10⟩, ⟨2, 20⟩]).search 1 = 10 :=
  (insertAll_refines (by decide) (show getMetadata (createIndexFile 20) = .ok _ from rfl)
    (by decide) (by decide)).1 1 10 (by decide)

end BPlusTree

end Laboratory.IndexFile
