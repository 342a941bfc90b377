import Laboratory.IndexFile.Equiv.NodeWrite
import Laboratory.IndexFile.Equiv.Subtree

/-!
# Insertion as a recursion

`insert` walks down to a leaf, remembers the path and walks it back up while nodes split.
`insertBelow` is the same insertion as a recursion over the depth, and `propagateLoop_path` says
that the loop over the path computes it.  The root is treated after the recursion, by `growRoot`
(`propagateLoop_root`, `insertIntoOnlyOne_eq`).  `insert_eq_growRoot` puts them together.
-/

namespace Laboratory.IndexFile

namespace BPlusTree

open Separators

variable {β : Type} [IntCodec β] {t t' : BPlusTree β}

/-! ### Insertion below a block -/

/-- The insertion into the tree of depth `d` below a block, as a recursion over the depth. -/
def insertBelow (t : BPlusTree β) (entry : Entry) : ℕ → ℤ → BPlusTree β × Entry
  | 0, b => t.insertLeaf entry b
  | d + 1, b =>
    let node := t.readInternal b
    let r := t.insertBelow entry d (descend entry.key node.firstChild node.separators)
    if isNoSplit r.2 then r else r.1.propagateNode r.2 b

/-- `descend` stops before the first separator above the key. -/
theorem descend_eq (k c : ℤ) (ss : List Entry) :
    descend k c ss = lastChild Entry.value c (ss.takeWhile fun s => s.key ≤ k) := by
  induction ss generalizing c with
  | nil => rfl
  | cons s ss ih =>
    by_cases h : s.key > k
    · rw [descend, if_pos h, List.takeWhile_cons_of_neg (by simpa using h)]
      rfl
    · rw [descend, if_neg h, List.takeWhile_cons_of_pos (by simpa using h), lastChild, ih]

theorem descend_mem (k : ℤ) (node : InternalNode) :
    descend k node.firstChild node.separators ∈ node.children := by
  unfold InternalNode.children
  rw [descend_eq, ← List.takeWhile_append_dropWhile (p := fun s : Entry => s.key ≤ k)
    (l := node.separators), children_append, List.takeWhile_append_dropWhile]
  exact List.mem_append_right _ (List.mem_cons_self ..)

theorem numOfNodes_le_insertBelow (t : BPlusTree β) (e : Entry) (d : ℕ) (b : ℤ) :
    t.numOfNodes_ ≤ (t.insertBelow e d b).1.numOfNodes_ := by
  induction d generalizing b with
  | zero => exact numOfNodes_le_insertLeaf t e b
  | succ d ih =>
    rw [insertBelow]
    split_ifs
    · exact ih _
    · exact (ih _).trans (numOfNodes_le_propagateNode ..)

/-- What is written below an internal node takes no more block numbers than the insertion. -/
theorem numOfNodes_insertBelow_le (t : BPlusTree β) (e : Entry) (d : ℕ) (b : ℤ) :
    (t.insertBelow e d (descend e.key (t.readInternal b).firstChild
      (t.readInternal b).separators)).1.numOfNodes_ ≤
        (t.insertBelow e (d + 1) b).1.numOfNodes_ := by
  rw [insertBelow]
  split_ifs
  · exact le_rfl
  · exact numOfNodes_le_propagateNode ..

theorem inRange_insertBelow {e : Entry} {d : ℕ} {b : ℤ} (hn : 0 ≤ t.numOfNodes_)
    (hfit : IntCodec.InRange β (t.insertBelow e (d + 1) b).1.numOfNodes_) :
    IntCodec.InRange β (t.insertBelow e d (descend e.key (t.readInternal b).firstChild
      (t.readInternal b).separators)).1.numOfNodes_ :=
  IntCodec.inRange_of_le (hn.trans (numOfNodes_le_insertBelow ..))
    (numOfNodes_insertBelow_le t e d b) hfit

/-! ### The promoted key fits into the file -/

theorem inRange_key_sortEntries {es : List Entry} {e : Entry} (hes : Entry.AllInRange β es)
    (he : IntCodec.InRange β e.key) {x : Entry} (hx : x ∈ sortEntries (es ++ [e])) :
    IntCodec.InRange β x.key := by
  rcases List.mem_append.mp ((sortEntries_perm _).mem_iff.mp hx) with hx | hx
  · exact (hes x hx).1
  · rw [List.mem_singleton.mp hx]
    exact he

theorem inRange_key_insertLeaf (t : BPlusTree β) {e : Entry} (he : IntCodec.InRange β e.key)
    (b : ℤ) :
    (t.insertLeaf e b).2 = NO_SPLIT ∨ IntCodec.InRange β (t.insertLeaf e b).2.key := by
  have hrange := fun x => inRange_key_sortEntries (inRange_readLeaf t b) he (x := x)
  unfold insertLeaf
  dsimp only
  generalize sortEntries ((t.readLeaf b).entries ++ [e]) = es at *
  split_ifs
  · exact .inl rfl
  · right
    show IntCodec.InRange β ((es.drop t.splitIndex.toNat).headD {}).key
    rcases hright : es.drop t.splitIndex.toNat with _ | ⟨x, r⟩
    · exact IntCodec.inRange_zero
    · refine hrange x (List.drop_subset t.splitIndex.toNat _ ?_)
      rw [hright]
      exact List.mem_cons_self ..

theorem inRange_key_propagateNode (t : BPlusTree β) {e : Entry} (he : IntCodec.InRange β e.key)
    (b : ℤ) :
    (t.propagateNode e b).2 = NO_SPLIT ∨ IntCodec.InRange β (t.propagateNode e b).2.key := by
  have hrange := fun x => inRange_key_sortEntries (inRange_readInternal t b) he (x := x)
  unfold propagateNode
  dsimp only
  generalize sortEntries ((t.readInternal b).separators ++ [e]) = ss at *
  split_ifs
  · exact .inl rfl
  · right
    show IntCodec.InRange β (ss.getD t.splitIndex.toNat {}).key
    rw [List.getD_eq_getElem?_getD]
    rcases hmid : ss[t.splitIndex.toNat]? with _ | x
    · exact IntCodec.inRange_zero
    · exact hrange x (List.mem_of_getElem? hmid)

/-- **The key that an insertion promotes** is the new one, or one that was in the file. -/
theorem inRange_key_insertBelow (t : BPlusTree β) {e : Entry} (he : IntCodec.InRange β e.key)
    (d : ℕ) (b : ℤ) :
    (t.insertBelow e d b).2 = NO_SPLIT ∨ IntCodec.InRange β (t.insertBelow e d b).2.key := by
  induction d generalizing b with
  | zero => exact inRange_key_insertLeaf t he b
  | succ d ih =>
    rw [insertBelow]
    split_ifs with hno
    · exact ih _
    · rcases ih (descend e.key (t.readInternal b).firstChild (t.readInternal b).separators)
        with hp | hp
      · rw [hp] at hno
        exact absurd isNoSplit_NO_SPLIT hno
      · exact inRange_key_propagateNode _ hp b

theorem rootBID_insertLeaf (t : BPlusTree β) (e : Entry) (b : ℤ) :
    (t.insertLeaf e b).1.rootBID_ = t.rootBID_ := by
  unfold insertLeaf
  dsimp only
  split_ifs <;> rfl

theorem rootBID_propagateNode (t : BPlusTree β) (e : Entry) (b : ℤ) :
    (t.propagateNode e b).1.rootBID_ = t.rootBID_ := by
  unfold propagateNode
  dsimp only
  split_ifs <;> rfl

theorem rootBID_insertBelow (t : BPlusTree β) (e : Entry) (d : ℕ) (b : ℤ) :
    (t.insertBelow e d b).1.rootBID_ = t.rootBID_ := by
  induction d generalizing b with
  | zero => exact rootBID_insertLeaf t e b
  | succ d ih =>
    rw [insertBelow]
    split_ifs
    · exact ih _
    · rw [rootBID_propagateNode]
      exact ih _

/-! ### The loop over the path -/

theorem propagateLoop_append (t : BPlusTree β) (p : Entry) (l : List ℤ) (b : ℤ) :
    t.propagateLoop p (l ++ [b]) =
      if isNoSplit (t.propagateLoop p l).2 then t.propagateLoop p l
      else (t.propagateLoop p l).1.propagate (t.propagateLoop p l).2 b := by
  induction l generalizing t p with
  | nil =>
    rw [List.nil_append, propagateLoop, propagateLoop, propagateLoop]
  | cons x l ih =>
    rw [List.cons_append, propagateLoop, propagateLoop]
    by_cases h : isNoSplit p
    · simp only [if_pos h]
    · simp only [if_neg h]
      exact ih _ _

theorem dest_mem_treeLeaves (t : BPlusTree β) (k : ℤ) (d : ℕ) (b : ℤ) :
    (t.getPathFrom k d b).dest ∈ t.treeLeaves d b := by
  induction d generalizing b with
  | zero => exact List.mem_singleton_self b
  | succ d ih => exact List.mem_flatMap.mpr ⟨_, descend_mem k (t.readInternal b), ih _⟩

theorem getPathFrom_nodes_ne_nil (t : BPlusTree β) (k : ℤ) (d : ℕ) (b : ℤ) :
    (t.getPathFrom k d b).nodes ≠ [] := by
  cases d <;> exact List.cons_ne_nil _ _

/-- **The loop over the path** computes the recursion, below the root. -/
theorem propagateLoop_path {e : Entry} {d : ℕ} {b : ℤ} (hroot : t.rootBID_ ∉ t.treeIds d b) :
    (t.insertLeaf e ((t.getPathFrom e.key d b).nodes.getLastD 0)).1.propagateLoop
        (t.insertLeaf e ((t.getPathFrom e.key d b).nodes.getLastD 0)).2
        (t.getPathFrom e.key d b).nodes.dropLast.reverse =
      t.insertBelow e d b := by
  induction d generalizing b with
  | zero => rfl
  | succ d ih =>
    have hmem := descend_mem e.key (t.readInternal b)
    have hchild := ih fun h => hroot (treeIds_child hmem h)
    have hb : b ≠ t.rootBID_ := fun h => hroot (h ▸ mem_treeIds_self t (d + 1) b)
    rw [getPathFrom, insertBelow]
    dsimp only
    obtain ⟨x, xs, hxs⟩ := List.exists_cons_of_ne_nil (getPathFrom_nodes_ne_nil t e.key d
      (descend e.key (t.readInternal b).firstChild (t.readInternal b).separators))
    rw [hxs] at hchild ⊢
    rw [List.dropLast_cons_of_ne_nil (List.cons_ne_nil _ _), List.reverse_cons,
      propagateLoop_append]
    have hlast : (b :: x :: xs).getLastD 0 = (x :: xs).getLastD 0 := rfl
    rw [hlast, hchild]
    split_ifs
    · rfl
    · exact propagate_of_ne (by rw [rootBID_insertBelow]; exact hb)

/-- The loop over the path from the root, which may put a new root above it. -/
theorem propagateLoop_root {e : Entry} {d : ℕ} (hn : 0 ≤ t.numOfNodes_)
    (hbelow : t.rootBID_ ∉ (t.readInternal t.rootBID_).children.flatMap (t.treeIds d)) :
    ((t.insertLeaf e ((t.getPathFrom e.key (d + 1) t.rootBID_).nodes.getLastD 0)).1.propagateLoop
        (t.insertLeaf e ((t.getPathFrom e.key (d + 1) t.rootBID_).nodes.getLastD 0)).2
        (t.getPathFrom e.key (d + 1) t.rootBID_).nodes.dropLast.reverse).1 =
      (t.insertBelow e (d + 1) t.rootBID_).1.growRoot (t.insertBelow e (d + 1) t.rootBID_).2 := by
  have hmem := descend_mem e.key (t.readInternal t.rootBID_)
  have hchild := propagateLoop_path (e := e) (d := d)
    (b := descend e.key (t.readInternal t.rootBID_).firstChild
      (t.readInternal t.rootBID_).separators)
    (fun h => hbelow (List.mem_flatMap.mpr ⟨_, hmem, h⟩))
  rw [getPathFrom, insertBelow]
  dsimp only
  obtain ⟨x, xs, hxs⟩ := List.exists_cons_of_ne_nil (getPathFrom_nodes_ne_nil t e.key d
    (descend e.key (t.readInternal t.rootBID_).firstChild
      (t.readInternal t.rootBID_).separators))
  rw [hxs] at hchild ⊢
  rw [List.dropLast_cons_of_ne_nil (List.cons_ne_nil _ _), List.reverse_cons,
    propagateLoop_append]
  have hlast : (t.rootBID_ :: x :: xs).getLastD 0 = (x :: xs).getLastD 0 := rfl
  rw [hlast, hchild]
  split_ifs with hsplit
  · rw [growRoot, if_pos hsplit]
  · have hroot := rootBID_insertBelow t e d
      (descend e.key (t.readInternal t.rootBID_).firstChild
        (t.readInternal t.rootBID_).separators)
    have hle := numOfNodes_le_insertBelow t e d
      (descend e.key (t.readInternal t.rootBID_).firstChild
        (t.readInternal t.rootBID_).separators)
    rw [propagate_root hroot.symm (hn.trans hle)]

/-- `insertIntoOnlyOne` is the insertion into the root leaf, with a new root after a split. -/
theorem insertIntoOnlyOne_eq {e : Entry} (hn : 0 ≤ t.numOfNodes_)
    (hnext : (t.readLeaf t.rootBID_).next = 0) :
    t.insertIntoOnlyOne e =
      (t.insertLeaf e t.rootBID_).1.growRoot (t.insertLeaf e t.rootBID_).2 := by
  unfold insertIntoOnlyOne insertLeaf
  dsimp only
  split_ifs
  · rw [growRoot, if_pos isNoSplit_NO_SPLIT]
  · rw [growRoot, isNoSplit_of_pos (by omega), hnext, if_neg (by decide)]
    simp only [writeLeaf, writeInternal, blockOffset, padding, add_assoc]
    rfl

/-- **One insertion** into a tree is the recursion, a new root if need be, and the metadata. -/
theorem insert_eq_growRoot (hn : 1 ≤ t.numOfNodes_) (hdepth : 0 ≤ t.depth_)
    (hsingle : t.depth_.toNat = 0 ↔ t.numOfNodes_ = 1)
    (hnext : t.numOfNodes_ = 1 → (t.readLeaf t.rootBID_).next = 0)
    (hbelow : ∀ d, t.depth_.toNat = d + 1 →
      t.rootBID_ ∉ (t.readInternal t.rootBID_).children.flatMap (t.treeIds d)) (e : Entry) :
    t.insert e = ((t.insertBelow e t.depth_.toNat t.rootBID_).1.growRoot
      (t.insertBelow e t.depth_.toNat t.rootBID_).2).writeMetadata := by
  unfold insert
  rw [if_neg (by omega)]
  by_cases hone : t.numOfNodes_ = 1
  · rw [if_pos hone, insertIntoOnlyOne_eq (by omega) (hnext hone), hsingle.mpr hone]
    rfl
  · have hd : t.depth_.toNat ≠ 0 := fun hd => hone (hsingle.mp hd)
    obtain ⟨d, hd⟩ := Nat.exists_eq_succ_of_ne_zero hd
    rw [if_neg hone, getPath, if_neg (by omega), hd]
    dsimp only
    rw [propagateLoop_root (by omega) (hbelow d hd)]

/-! ### Insertions only allocate -/

theorem numOfNodes_le_propagate (t : BPlusTree β) (e : Entry) (b : ℤ) :
    t.numOfNodes_ ≤ (t.propagate e b).1.numOfNodes_ := by
  unfold propagate
  dsimp only
  split_ifs
  · exact le_rfl
  · show t.numOfNodes_ ≤ t.numOfNodes_ + 1 + 1
    omega
  · exact Int.le_add_one le_rfl

theorem numOfNodes_le_propagateLoop (t : BPlusTree β) (p : Entry) (path : List ℤ) :
    t.numOfNodes_ ≤ (t.propagateLoop p path).1.numOfNodes_ := by
  induction path generalizing t p with
  | nil => exact le_rfl
  | cons b path ih =>
    rw [propagateLoop]
    split_ifs
    · exact le_rfl
    · exact (numOfNodes_le_propagate t p b).trans (ih _ _)

theorem numOfNodes_le_insertIntoOnlyOne (t : BPlusTree β) (e : Entry) :
    t.numOfNodes_ ≤ (t.insertIntoOnlyOne e).numOfNodes_ := by
  unfold insertIntoOnlyOne
  dsimp only
  split_ifs
  · exact le_rfl
  · show t.numOfNodes_ ≤ t.numOfNodes_ + 2
    omega

theorem numOfNodes_le_insert (t : BPlusTree β) (e : Entry) :
    t.numOfNodes_ ≤ (t.insert e).numOfNodes_ := by
  unfold insert
  split_ifs with h0 h1
  · rw [h0]
    exact zero_le_one
  · exact numOfNodes_le_insertIntoOnlyOne t e
  · exact (numOfNodes_le_insertLeaf ..).trans (numOfNodes_le_propagateLoop ..)

/-! ### The block size never changes -/

theorem blockSize_insertLeaf (t : BPlusTree β) (e : Entry) (b : ℤ) :
    (t.insertLeaf e b).1.blockSize_ = t.blockSize_ := by
  unfold insertLeaf
  dsimp only
  split_ifs <;> rfl

theorem blockSize_propagate (t : BPlusTree β) (e : Entry) (b : ℤ) :
    (t.propagate e b).1.blockSize_ = t.blockSize_ := by
  unfold propagate
  dsimp only
  split_ifs <;> rfl

theorem blockSize_propagateLoop (t : BPlusTree β) (p : Entry) (path : List ℤ) :
    (t.propagateLoop p path).1.blockSize_ = t.blockSize_ := by
  induction path generalizing t p with
  | nil => rfl
  | cons b path ih =>
    rw [propagateLoop]
    split_ifs
    · rfl
    · rw [ih, blockSize_propagate]

theorem blockSize_insert (t : BPlusTree β) (e : Entry) :
    (t.insert e).blockSize_ = t.blockSize_ := by
  unfold insert
  split_ifs
  · rfl
  · unfold insertIntoOnlyOne
    dsimp only
    split_ifs <;> rfl
  · exact (blockSize_propagateLoop ..).trans (blockSize_insertLeaf ..)

theorem blockSize_insertAll (t : BPlusTree β) (es : List Entry) :
    (t.insertAll es).blockSize_ = t.blockSize_ := by
  induction es generalizing t with
  | nil => rfl
  | cons e es ih => exact (ih (t.insert e)).trans (blockSize_insert t e)

end BPlusTree

end Laboratory.IndexFile
