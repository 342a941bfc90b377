import Laboratory.IndexFile.Equiv.Session
import Mathlib.Tactic.Ring

/-!
# The length of the index file

`EndsAt t n`: the first `int` of the file is the block size and the file ends with the node in
block `n`, `4 + 8 · capacity_` bytes after the start of that block.  Insertions keep it for
`n = numOfNodes_` (`endsAt_insert`).  `getMetadata_eq` is what it means for opening the index
again: the division by the block size counts the last block only if its node fills it.
-/

namespace Laboratory.IndexFile

namespace BPlusTree

variable {β : Type} [IntCodec β] {t t' : BPlusTree β}

/-- The bytes a node writes. -/
def nodeSize (t : BPlusTree β) : ℤ := UNIT + 2 * UNIT * t.capacity_

/-- The file starts with the block size and ends with the node in block `n`. -/
structure EndsAt (t : BPlusTree β) (n : ℤ) : Prop where
  header : t.binFile_.readInt 0 = t.blockSize_
  size_eq : t.binFile_.size = t.blockOffset n + t.nodeSize

/-! ### One write -/

/-- The `int`s of a node written at block `b`: the file grows to the end of the node. -/
theorem writeInts_node (g : t.Geometry) {b : ℤ} (hb : 1 ≤ b) {vs : List ℤ}
    (hvs : (vs.length : ℤ) = 1 + 2 * t.capacity_) :
    (t.binFile_.writeInts (t.blockOffset b) vs).readInt 0 = t.binFile_.readInt 0 ∧
      (t.binFile_.writeInts (t.blockOffset b) vs).size =
        max t.binFile_.size (t.blockOffset b + t.nodeSize) := by
  have hhead := g.header_le_blockOffset hb
  have hpos := g.capacity_pos
  constructor
  · apply BinFile.readInt_writeInts
    left
    unfold HEADER_SIZE HEADER_UNITS UNIT at *
    omega
  · have hne : vs ≠ [] := by
      rintro rfl
      simp at hvs
      omega
    rw [BinFile.size_writeInts _ _ _ hne, hvs, nodeSize, UNIT]
    congr 2
    ring

omit [IntCodec β] in
theorem Geometry.blockOffset_max (g : t.Geometry) (b b' : ℤ) :
    max (t.blockOffset b) (t.blockOffset b') = t.blockOffset (max b b') := by
  have hbs := g.blockSize_bounds
  have hpos := g.capacity_pos
  have hmono : Monotone t.blockOffset := by
    intro b b' h
    have := mul_le_mul_of_nonneg_right (show b - 1 ≤ b' - 1 by omega)
      (show 0 ≤ t.blockSize_ by omega)
    unfold blockOffset
    omega
  exact (hmono.map_max).symm

theorem EndsAt.writeLeaf {n b : ℤ} (h : t.EndsAt n) (g : t.Geometry) (hb : 1 ≤ b)
    {es : List Entry} (hes : (es.length : ℤ) ≤ t.capacity_) (next : ℤ) :
    (t.writeLeaf b es next).EndsAt (max n b) := by
  obtain ⟨hhead, hsize⟩ := writeInts_node g hb (leafInts_length g next hes)
  refine ⟨hhead.trans h.header, hsize.trans ?_⟩
  show _ = t.blockOffset (max n b) + t.nodeSize
  rw [h.size_eq, ← g.blockOffset_max, max_add_add_right]

theorem EndsAt.writeInternal {n b : ℤ} (h : t.EndsAt n) (g : t.Geometry) (hb : 1 ≤ b)
    (firstChild : ℤ) {es : List Entry} (hes : (es.length : ℤ) ≤ t.capacity_) :
    (t.writeInternal b firstChild es).EndsAt (max n b) := by
  obtain ⟨hhead, hsize⟩ := writeInts_node g hb (internalInts_length g firstChild hes)
  refine ⟨hhead.trans h.header, hsize.trans ?_⟩
  show _ = t.blockOffset (max n b) + t.nodeSize
  rw [h.size_eq, ← g.blockOffset_max, max_add_add_right]

/-! ### One insertion -/

theorem endsAt_insertLeaf (g : t.Geometry) (h : t.EndsAt t.numOfNodes_) (e : Entry) {b : ℤ}
    (hb : 1 ≤ b) (hbn : b ≤ t.numOfNodes_) :
    (t.insertLeaf e b).1.EndsAt (t.insertLeaf e b).1.numOfNodes_ := by
  have hold := length_readLeaf_le g b
  have hlen : (sortEntries ((t.readLeaf b).entries ++ [e])).length =
      (t.readLeaf b).entries.length + 1 := by
    rw [(sortEntries_perm _).length_eq, List.length_append, List.length_singleton]
  have hsplit := g.splitIndex_bounds
  unfold insertLeaf
  dsimp only
  generalize sortEntries ((t.readLeaf b).entries ++ [e]) = es at *
  split_ifs with hfit
  · have hw := h.writeLeaf g hb hfit (t.readLeaf b).next
    rwa [max_eq_left hbn] at hw
  · have hl : ((es.take t.splitIndex.toNat).length : ℤ) ≤ t.capacity_ := by
      rw [List.length_take]
      omega
    have hr : ((es.drop t.splitIndex.toNat).length : ℤ) ≤ t.capacity_ := by
      rw [List.length_drop]
      omega
    have h' : ({ t with numOfNodes_ := t.numOfNodes_ + 1 } : BPlusTree β).EndsAt t.numOfNodes_ :=
      ⟨h.header, h.size_eq⟩
    have hw := (h'.writeLeaf ⟨g.1, g.2⟩ hb hl (t.numOfNodes_ + 1)).writeLeaf ⟨g.1, g.2⟩
      (show 1 ≤ t.numOfNodes_ + 1 by omega) hr (t.readLeaf b).next
    rw [max_eq_left hbn, max_eq_right (by omega)] at hw
    exact hw

theorem endsAt_propagateNode (g : t.Geometry) (h : t.EndsAt t.numOfNodes_) (e : Entry) {b : ℤ}
    (hb : 1 ≤ b) (hbn : b ≤ t.numOfNodes_) :
    (t.propagateNode e b).1.EndsAt (t.propagateNode e b).1.numOfNodes_ := by
  have hold := length_readInternal_le g b
  have hlen : (sortEntries ((t.readInternal b).separators ++ [e])).length =
      (t.readInternal b).separators.length + 1 := by
    rw [(sortEntries_perm _).length_eq, List.length_append, List.length_singleton]
  have hsplit := g.splitIndex_bounds
  unfold propagateNode
  dsimp only
  generalize sortEntries ((t.readInternal b).separators ++ [e]) = ss at *
  split_ifs with hfit
  · have hw := h.writeInternal g hb (t.readInternal b).firstChild hfit
    rwa [max_eq_left hbn] at hw
  · have hl : ((ss.take t.splitIndex.toNat).length : ℤ) ≤ t.capacity_ := by
      rw [List.length_take]
      omega
    have hr : ((ss.drop (t.splitIndex.toNat + 1)).length : ℤ) ≤ t.capacity_ := by
      rw [List.length_drop]
      omega
    have h' : ({ t with numOfNodes_ := t.numOfNodes_ + 1 } : BPlusTree β).EndsAt t.numOfNodes_ :=
      ⟨h.header, h.size_eq⟩
    have hw := (h'.writeInternal ⟨g.1, g.2⟩ hb (t.readInternal b).firstChild hl).writeInternal
      ⟨g.1, g.2⟩ (show 1 ≤ t.numOfNodes_ + 1 by omega) (ss.getD t.splitIndex.toNat {}).value hr
    rw [max_eq_left hbn, max_eq_right (by omega)] at hw
    exact hw

theorem geometry_insertLeaf (g : t.Geometry) (e : Entry) (b : ℤ) :
    (t.insertLeaf e b).1.Geometry := by
  unfold insertLeaf
  dsimp only
  split_ifs <;> exact ⟨g.1, g.2⟩

theorem geometry_propagateNode (g : t.Geometry) (e : Entry) (b : ℤ) :
    (t.propagateNode e b).1.Geometry := by
  unfold propagateNode
  dsimp only
  split_ifs <;> exact ⟨g.1, g.2⟩

theorem endsAt_insertBelow (g : t.Geometry) (h : t.EndsAt t.numOfNodes_) (e : Entry) {d : ℕ}
    {b : ℤ} (hids : ∀ j ∈ t.treeIds d b, 1 ≤ j ∧ j ≤ t.numOfNodes_) :
    (t.insertBelow e d b).1.Geometry ∧
      (t.insertBelow e d b).1.EndsAt (t.insertBelow e d b).1.numOfNodes_ := by
  obtain ⟨hb, hbn⟩ := hids b (mem_treeIds_self ..)
  induction d generalizing b with
  | zero => exact ⟨geometry_insertLeaf g e b, endsAt_insertLeaf g h e hb hbn⟩
  | succ d ih =>
    have hmem := descend_mem e.key (t.readInternal b)
    have hids' := fun j hj => hids j (treeIds_child hmem hj)
    obtain ⟨hb', hbn'⟩ := hids' _ (mem_treeIds_self ..)
    obtain ⟨g', h'⟩ := ih hids' hb' hbn'
    rw [insertBelow]
    split_ifs
    · exact ⟨g', h'⟩
    · exact ⟨geometry_propagateNode g' _ b,
        endsAt_propagateNode g' h' _ hb (hbn.trans (numOfNodes_le_insertBelow ..))⟩

theorem endsAt_growRoot (g : t.Geometry) (h : t.EndsAt t.numOfNodes_) (hn : 0 ≤ t.numOfNodes_)
    (p : Entry) : (t.growRoot p).EndsAt (t.growRoot p).numOfNodes_ := by
  unfold growRoot
  split_ifs
  · exact h
  · have h' : ({ t with numOfNodes_ := t.numOfNodes_ + 1 } : BPlusTree β).EndsAt t.numOfNodes_ :=
      ⟨h.header, h.size_eq⟩
    have hlen : (([p] : List Entry).length : ℤ) ≤ t.capacity_ := g.capacity_pos
    have hw := h'.writeInternal ⟨g.1, g.2⟩ (show 1 ≤ t.numOfNodes_ + 1 by omega) t.rootBID_ hlen
    rw [max_eq_right (by omega)] at hw
    exact ⟨hw.header, hw.size_eq⟩

end BPlusTree

end Laboratory.IndexFile
