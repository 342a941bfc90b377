import Laboratory.IndexFile.ByteCodec
import Laboratory.IndexFile.Equiv.Session

/-!
# The representation invariant

`WellFormed` is the invariant of the index in its own terms: the order of keys and separators, the
separator bounds, the level of the leaves, the leaf chain and the ownership of the blocks.
`Holds.wellFormed` reads it off the invariant of a session.
-/

namespace Laboratory.IndexFile

namespace BPlusTree

open Separators

variable {β : Type} [IntCodec β] {t : BPlusTree β}

/-- The blocks of the tree below `rootBID_`, each with its height above the leaves. -/
def blocks (t : BPlusTree β) : List (ℕ × ℤ) :=
  if t.numOfNodes_ = 0 then [] else t.treeBlocks t.depth_.toNat t.rootBID_

/-- The leaves of the tree below `rootBID_`, from left to right. -/
def leaves (t : BPlusTree β) : List ℤ :=
  if t.numOfNodes_ = 0 then [] else t.treeLeaves t.depth_.toNat t.rootBID_

/-- **The representation invariant.**  A block of height `d` is at level `depth_ - d`. -/
structure WellFormed (t : BPlusTree β) : Prop where
  leaf_sorted : ∀ b, (0, b) ∈ t.blocks →
    (t.readLeaf b).entries.Pairwise (fun x y => x.key < y.key) ∧
      ((t.readLeaf b).entries.length : ℤ) ≤ t.capacity_
  internal_sorted : ∀ d b, (d + 1, b) ∈ t.blocks →
    (t.readInternal b).separators.Pairwise (fun x y => x.key < y.key) ∧
      ((t.readInternal b).separators.length : ℤ) ≤ t.capacity_
  /-- Every key below a child is at least the separator on its left. -/
  separator_le : ∀ d b, (d + 1, b) ∈ t.blocks → ∀ (i : ℕ) (c : ℤ) (s : Entry),
    (t.readInternal b).children[i + 1]? = some c → (t.readInternal b).separators[i]? = some s →
      ∀ e ∈ t.treeEntries d c, s.key ≤ e.key
  /-- Every key below a child is less than the separator on its right. -/
  lt_separator : ∀ d b, (d + 1, b) ∈ t.blocks → ∀ (i : ℕ) (c : ℤ) (s : Entry),
    (t.readInternal b).children[i]? = some c → (t.readInternal b).separators[i]? = some s →
      ∀ e ∈ t.treeEntries d c, e.key < s.key
  /-- The blocks at level `depth_` are written as leaves, those above as internal nodes. -/
  leaf_level : 0 ≤ t.depth_ ∧ ∀ d b, (d, b) ∈ t.blocks →
    t.binFile_.layout (t.blockOffset b) = some (if d = 0 then .leaf else .internal)
  /-- Following `next` from block `1` visits the leaves in order and ends at `0`. -/
  chain : t.numOfNodes_ ≠ 0 → t.Chain 1 t.leaves 0
  /-- Every block id from `1` to `numOfNodes_` is used by exactly one node. -/
  owned : (t.blocks.map Prod.snd).Perm (newIds 0 t.numOfNodes_)

/-- Every block of an ordered tree is the root of an ordered tree. -/
theorem Ordered.of_mem_treeBlocks {d d' : ℕ} {lo hi b b' : ℤ} (h : t.Ordered d lo hi b)
    (hmem : (d', b') ∈ t.treeBlocks d b) : ∃ lo' hi', t.Ordered d' lo' hi' b' := by
  induction d generalizing lo hi b with
  | zero =>
    obtain ⟨rfl, rfl⟩ : d' = 0 ∧ b' = b := by simpa [treeBlocks] using hmem
    exact ⟨lo, hi, h⟩
  | succ d ih =>
    rcases List.mem_cons.mp hmem with heq | hmem
    · obtain ⟨rfl, rfl⟩ := Prod.mk.inj heq
      exact ⟨lo, hi, h⟩
    · obtain ⟨c, hc, hmem⟩ := List.mem_flatMap.mp hmem
      obtain ⟨i, hi⟩ := List.mem_iff_getElem?.mp hc
      exact ih (h.1.getElem? hi) hmem

/-- The invariant of a session gives the representation invariant. -/
theorem Holds.wellFormed {es : List Entry} (h : t.Holds es) : t.WellFormed := by
  have hone := h.one_le_numOfNodes
  obtain ⟨lo, hi, ho⟩ := h.ordered
  have hblocks : t.blocks = t.treeBlocks t.depth_.toNat t.rootBID_ := if_neg (by omega)
  have hleaves : t.leaves = t.treeLeaves t.depth_.toNat t.rootBID_ := if_neg (by omega)
  have hsub : ∀ d b, (d, b) ∈ t.blocks → ∃ lo hi, t.Ordered d lo hi b := by
    intro d b hb
    rw [hblocks] at hb
    exact ho.of_mem_treeBlocks hb
  refine ⟨?_, ?_, ?_, ?_, ⟨h.depth_nonneg, ?_⟩, ?_, ?_⟩
  · intro b hb
    obtain ⟨lo, hi, ho⟩ := hsub 0 b hb
    exact ⟨ho.2.1, ho.2.2.2.1⟩
  · intro d b hb
    obtain ⟨lo, hi, ho⟩ := hsub (d + 1) b hb
    exact ⟨ho.1.pairwise Ordered.lt, ho.2.1⟩
  · intro d b hb i c s hc hs e he
    obtain ⟨lo, hi, ho⟩ := hsub (d + 1) b hb
    have hbound := ((ho.1.getElem? hc).treeEntries.2 e he).1
    rwa [lowerBound_take hs] at hbound
  · intro d b hb i c s hc hs e he
    obtain ⟨lo, hi, ho⟩ := hsub (d + 1) b hb
    have hbound := ((ho.1.getElem? hc).treeEntries.2 e he).2
    rwa [upperBound_drop hs] at hbound
  · intro d b hb
    obtain ⟨lo, hi, ho⟩ := hsub d b hb
    cases d with
    | zero => exact ho.2.2.2.2
    | succ d => exact ho.2.2
  · intro _
    rw [hleaves]
    exact h.chain
  · rw [hblocks, treeBlocks_map_snd]
    exact h.ids

theorem Represents.wellFormed {es : List Entry} (h : t.Represents es) : t.WellFormed := by
  cases h with
  | empty _ hn _ hdepth =>
    have hblocks : t.blocks = [] := if_pos hn
    refine ⟨?_, ?_, ?_, ?_, ⟨hdepth.ge, ?_⟩, fun hne => absurd hn hne, ?_⟩
    all_goals rw [hblocks]
    · simp
    · simp
    · simp
    · simp
    · simp
    · rw [hn]
      exact List.Perm.refl _
  | tree h => exact h.wellFormed

/-- **Every reachable state is well formed**, as long as the number of nodes is an `int`. -/
theorem wellFormed_insertAll {bs : ℤ} (hbs : IntCodec.InRange β bs) {t : BPlusTree β}
    (hopen : getMetadata (createIndexFile bs) = .ok t) {es : List Entry} (hes : Insertable β es)
    (hfit : IntCodec.InRange β (t.insertAll es).numOfNodes_) : (t.insertAll es).WellFormed :=
  (represents_session hbs hopen hes hfit).wellFormed

/-- Two entries per node: the third insertion splits the root leaf. -/
theorem wellFormed_insertAll_split :
    (insertAll ⟨20, 0, 0, 2, 0, (createIndexFile 20 : BinFile UInt8)⟩
      [⟨3, 30⟩, ⟨1, 10⟩, ⟨2, 20⟩]).WellFormed :=
  wellFormed_insertAll (by decide) (show getMetadata (createIndexFile 20) = .ok _ from rfl)
    (by decide) (by decide)

end BPlusTree

end Laboratory.IndexFile
