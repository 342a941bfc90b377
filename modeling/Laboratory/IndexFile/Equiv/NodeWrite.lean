import Laboratory.IndexFile.Equiv.NodeIO

/-!
# What an insertion writes

`insertLeaf_written`, `propagateNode_written` and `growRoot_written` say what the steps of an
insertion leave in the file, for entries and separators with any keys.  `propagateNode` is
`propagate` before it looks whether the node is the root, and `growRoot` what it does then.
-/

namespace Laboratory.IndexFile

/-! ### Sorted entries -/

instance : Std.Total Entry.le := ⟨fun a b => by unfold Entry.le; omega⟩

instance : IsTrans Entry Entry.le := ⟨fun a b c hab hbc => by unfold Entry.le at *; omega⟩

theorem Entry.le_antisymm (a b : Entry) (hab : Entry.le a b) (hba : Entry.le b a) : a = b := by
  unfold Entry.le at hab hba
  cases a
  cases b
  simp only [Entry.mk.injEq] at *
  omega

theorem sortEntries_perm (es : List Entry) : (sortEntries es).Perm es :=
  List.perm_insertionSort Entry.le es

namespace BPlusTree

variable {β : Type} [IntCodec β] {t t' : BPlusTree β}

/-! ### Entries with key `0` -/

theorem live_append (es es' : List Entry) : live (es ++ es') = live es ++ live es' :=
  List.filter_append ..

theorem live_perm {es es' : List Entry} (h : es.Perm es') : (live es).Perm (live es') :=
  h.filter _

theorem live_readLeaf (t : BPlusTree β) (b : ℤ) :
    live (t.readLeaf b).entries = (t.readLeaf b).entries :=
  live_eq_self fun _ he => key_ne_zero_of_mem_readLeaf he

/-! ### Rewritten blocks -/

/-- What writing the nodes `bs` leaves alone: everything but `bs`. -/
structure Rewritten (t t' : BPlusTree β) (bs : List ℤ) : Prop where
  blockSize_eq : t'.blockSize_ = t.blockSize_
  capacity_eq : t'.capacity_ = t.capacity_
  rootBID_eq : t'.rootBID_ = t.rootBID_
  depth_eq : t'.depth_ = t.depth_
  numOfNodes_le : t.numOfNodes_ ≤ t'.numOfNodes_
  frame : ∀ j, j ≤ t.numOfNodes_ → j ∉ bs → SameBlock t t' j

/-- Every insertion step allocates upwards. -/
theorem numOfNodes_le_insertLeaf (t : BPlusTree β) (e : Entry) (b : ℤ) :
    t.numOfNodes_ ≤ (t.insertLeaf e b).1.numOfNodes_ := by
  unfold insertLeaf
  dsimp only
  split_ifs
  · exact le_rfl
  · exact Int.le_add_one le_rfl

omit [IntCodec β] in
/-- An overflowing node is cut at its split index: there is something on both sides. -/
theorem Geometry.cut (g : t.Geometry) {es : List Entry} (hlong : t.capacity_ < es.length)
    (hlen : (es.length : ℤ) ≤ t.capacity_ + 1) :
    ∃ l x r, es = l ++ x :: r ∧ l.length = t.splitIndex.toNat ∧ l ≠ [] ∧
      (l.length : ℤ) ≤ t.capacity_ ∧ ((x :: r).length : ℤ) ≤ t.capacity_ := by
  obtain ⟨hmid, hmid'⟩ := g.splitIndex_bounds
  have hlt : t.splitIndex.toNat < es.length := by omega
  refine ⟨es.take t.splitIndex.toNat, es[t.splitIndex.toNat], es.drop (t.splitIndex.toNat + 1),
    ?_, ?_, ?_, ?_, ?_⟩
  · rw [List.getElem_cons_drop, List.take_append_drop]
  · rw [List.length_take]
    omega
  · rw [Ne, List.take_eq_nil_iff, not_or]
    refine ⟨by omega, ?_⟩
    rintro rfl
    simp at hlt
  · rw [List.length_take]
    omega
  · rw [List.length_cons, List.length_drop]
    omega

/-- How `insertLeaf` left the file: the entries `es` are in the leaf, or divided between it and a
new leaf that is linked in behind it. -/
inductive LeafWritten (t : BPlusTree β) (b next : ℤ) (es : List Entry) :
    BPlusTree β × Entry → Prop where
  | kept {t' : BPlusTree β} (fits : (es.length : ℤ) ≤ t.capacity_) (rewritten : Rewritten t t' [b])
      (numOfNodes_eq : t'.numOfNodes_ = t.numOfNodes_) (read : t'.readLeaf b = ⟨live es, next⟩)
      (layout : t'.binFile_.layout (t'.blockOffset b) = some .leaf) :
      LeafWritten t b next es (t', NO_SPLIT)
  | split {t' : BPlusTree β} {l r : List Entry} {x : Entry} (eq_append : es = l ++ x :: r)
      (length_left : l.length = t.splitIndex.toNat) (overflows : t.capacity_ < es.length)
      (rewritten : Rewritten t t' [b, t.numOfNodes_ + 1])
      (numOfNodes_eq : t'.numOfNodes_ = t.numOfNodes_ + 1)
      (left : t'.readLeaf b = ⟨live l, t.numOfNodes_ + 1⟩)
      (right : t'.readLeaf (t.numOfNodes_ + 1) = ⟨live (x :: r), next⟩)
      (layout : ∀ j ∈ [b, t.numOfNodes_ + 1],
        t'.binFile_.layout (t'.blockOffset j) = some .leaf) :
      LeafWritten t b next es (t', ⟨x.key, t.numOfNodes_ + 1⟩)

/-- The entries of a leaf and one more, sorted. -/
theorem inRange_sortEntries {es : List Entry} {e : Entry} (hes : Entry.AllInRange β es)
    (he : IntCodec.InRange β e.key ∧ IntCodec.InRange β e.value) :
    Entry.AllInRange β (sortEntries (es ++ [e])) := by
  intro x hx
  rcases List.mem_append.mp ((sortEntries_perm _).mem_iff.mp hx) with hx | hx
  · exact hes x hx
  · rw [List.mem_singleton.mp hx]
    exact he

theorem insertLeaf_written (g : t.Geometry) {b : ℤ} {e : Entry} (hb : b ≤ t.numOfNodes_)
    (he : IntCodec.InRange β e.key ∧ IntCodec.InRange β e.value)
    (hn : IntCodec.InRange β (t.insertLeaf e b).1.numOfNodes_) :
    LeafWritten t b (t.readLeaf b).next (sortEntries ((t.readLeaf b).entries ++ [e]))
      (t.insertLeaf e b) := by
  have hrange := inRange_sortEntries (inRange_readLeaf t b) he
  have hnext : IntCodec.InRange β (t.readLeaf b).next := IntCodec.inRange_decode _
  have hlen : ((sortEntries ((t.readLeaf b).entries ++ [e])).length : ℤ) ≤ t.capacity_ + 1 := by
    have hold := length_readLeaf_le g b
    rw [(sortEntries_perm _).length_eq, List.length_append, List.length_singleton]
    omega
  unfold insertLeaf at hn ⊢
  dsimp only at hn ⊢
  generalize sortEntries ((t.readLeaf b).entries ++ [e]) = es at *
  by_cases hfit : (es.length : ℤ) ≤ t.capacity_
  · rw [if_pos hfit]
    refine .kept hfit ⟨rfl, rfl, rfl, rfl, le_rfl, fun j _ hj => ?_⟩ rfl
      (readLeaf_writeLeaf_live g b hfit hrange hnext) (layout_writeLeaf t b es _)
    exact sameBlock_writeLeaf g (by simpa using hj) _ hfit
  · rw [if_neg hfit] at hn ⊢
    obtain ⟨l, x, r, rfl, hmid, -, hl, hr⟩ := g.cut (not_le.mp hfit) hlen
    rw [← hmid, List.take_left, List.drop_left, List.headD_cons]
    obtain ⟨hleft, hright, hlay, hsame⟩ := writeLeaf_writeLeaf
      (t := { t with numOfNodes_ := t.numOfNodes_ + 1 }) ⟨g.1, g.2⟩ (b := b)
      (show b ≠ t.numOfNodes_ + 1 by omega) hl hr hrange hn hnext
    refine .split rfl hmid (not_le.mp hfit) ⟨rfl, rfl, rfl, rfl, Int.le_add_one le_rfl, ?_⟩ rfl
      hleft hright hlay
    intro j _ hj
    rw [List.mem_cons, List.mem_singleton, not_or] at hj
    have hcount : SameBlock t { t with numOfNodes_ := t.numOfNodes_ + 1 } j := .of_file rfl rfl rfl
    exact hcount.trans (hsame j hj.1 hj.2)

/-! ### Insertion of a promoted separator -/

/-- `propagate` before it looks whether the node is the root. -/
def propagateNode (t : BPlusTree β) (entry : Entry) (blockId : ℤ) : BPlusTree β × Entry :=
  let node := t.readInternal blockId
  let separators := sortEntries (node.separators ++ [entry])
  if (separators.length : ℤ) ≤ t.capacity_ then
    (t.writeInternal blockId node.firstChild separators, NO_SPLIT)
  else
    let mid := t.splitIndex.toNat
    let newBlockId := t.numOfNodes_ + 1
    let t := { t with numOfNodes_ := newBlockId }
    let t := t.writeInternal blockId node.firstChild (separators.take mid)
    let t := t.writeInternal newBlockId (separators.getD mid {}).value (separators.drop (mid + 1))
    (t, ⟨(separators.getD mid {}).key, newBlockId⟩)

/-- A new root above the old one and its split-off sibling, if there is one. -/
def growRoot (t : BPlusTree β) (promoted : Entry) : BPlusTree β :=
  if isNoSplit promoted then t
  else
    { { t with numOfNodes_ := t.numOfNodes_ + 1 }.writeInternal (t.numOfNodes_ + 1) t.rootBID_
        [promoted] with rootBID_ := t.numOfNodes_ + 1, depth_ := t.depth_ + 1 }

@[simp] theorem isNoSplit_NO_SPLIT : isNoSplit NO_SPLIT = true := rfl

theorem isNoSplit_of_pos {k nb : ℤ} (h : 0 < nb) : isNoSplit ⟨k, nb⟩ = false := by
  have hne : (nb == -1) = false := by
    rw [beq_eq_false_iff_ne]
    omega
  simp [isNoSplit, NO_SPLIT, hne]

theorem propagate_of_ne {e : Entry} {b : ℤ} (h : b ≠ t.rootBID_) :
    t.propagate e b = t.propagateNode e b := by
  unfold propagate propagateNode
  dsimp only
  split_ifs with hfit hroot
  · rfl
  · exact absurd hroot h
  · rfl

theorem propagate_root {e : Entry} {b : ℤ} (h : b = t.rootBID_) (hn : 0 ≤ t.numOfNodes_) :
    t.propagate e b =
      ((t.propagateNode e b).1.growRoot (t.propagateNode e b).2, NO_SPLIT) := by
  unfold propagate propagateNode
  dsimp only
  split_ifs with hfit hroot
  · simp [growRoot]
  · rw [growRoot, isNoSplit_of_pos (by omega), h]
    rfl
  · exact absurd h hroot

theorem numOfNodes_le_propagateNode (t : BPlusTree β) (e : Entry) (b : ℤ) :
    t.numOfNodes_ ≤ (t.propagateNode e b).1.numOfNodes_ := by
  unfold propagateNode
  dsimp only
  split_ifs
  · exact le_rfl
  · exact Int.le_add_one le_rfl

/-- How `propagateNode` left the file: the separators `ss` are in the node, or all but one of them
are divided between it and a new node. -/
inductive NodeWritten (t : BPlusTree β) (b first : ℤ) (ss : List Entry) :
    BPlusTree β × Entry → Prop where
  | kept {t' : BPlusTree β} (rewritten : Rewritten t t' [b])
      (numOfNodes_eq : t'.numOfNodes_ = t.numOfNodes_)
      (read : t'.readInternal b = ⟨first, visible ss⟩) (length_le : (ss.length : ℤ) ≤ t.capacity_)
      (layout : t'.binFile_.layout (t'.blockOffset b) = some .internal) :
      NodeWritten t b first ss (t', NO_SPLIT)
  | split {t' : BPlusTree β} {l r : List Entry} {m : Entry} (eq_append : ss = l ++ m :: r)
      (length_left : l.length = t.splitIndex.toNat) (overflows : t.capacity_ < ss.length)
      (rewritten : Rewritten t t' [b, t.numOfNodes_ + 1])
      (numOfNodes_eq : t'.numOfNodes_ = t.numOfNodes_ + 1)
      (left : t'.readInternal b = ⟨first, visible l⟩)
      (right : t'.readInternal (t.numOfNodes_ + 1) = ⟨m.value, visible r⟩)
      (length_left_le : (l.length : ℤ) ≤ t.capacity_)
      (length_right_le : (r.length : ℤ) ≤ t.capacity_)
      (layout : ∀ x ∈ [b, t.numOfNodes_ + 1],
        t'.binFile_.layout (t'.blockOffset x) = some .internal) :
      NodeWritten t b first ss (t', ⟨m.key, t.numOfNodes_ + 1⟩)

theorem propagateNode_written (g : t.Geometry) {b : ℤ} {e : Entry} {ss : List Entry}
    (hb : b ≤ t.numOfNodes_) (hsorted : sortEntries ((t.readInternal b).separators ++ [e]) = ss)
    (he : IntCodec.InRange β e.key ∧ IntCodec.InRange β e.value) :
    NodeWritten t b (t.readInternal b).firstChild ss (t.propagateNode e b) := by
  have hfirst : IntCodec.InRange β (t.readInternal b).firstChild := IntCodec.inRange_decode _
  have hes : Entry.AllInRange β ss := by
    rw [← hsorted]
    exact inRange_sortEntries (inRange_readInternal t b) he
  have hlen : (ss.length : ℤ) ≤ t.capacity_ + 1 := by
    have hold := length_readInternal_le g b
    rw [← hsorted, (sortEntries_perm _).length_eq, List.length_append, List.length_singleton]
    omega
  unfold propagateNode
  dsimp only
  rw [hsorted]
  by_cases hfit : (ss.length : ℤ) ≤ t.capacity_
  · rw [if_pos hfit]
    refine .kept ⟨rfl, rfl, rfl, rfl, le_rfl, fun j _ hj => ?_⟩ rfl
      (readInternal_writeInternal_visible g b hfit hes hfirst) hfit (layout_writeInternal t b _ _)
    exact sameBlock_writeInternal g (by simpa using hj) _ hfit
  · rw [if_neg hfit]
    -- the separator `m` moves up
    obtain ⟨l, m, r, rfl, hmid, -, hl, hr⟩ := g.cut (not_le.mp hfit) hlen
    have hrlen : (r.length : ℤ) ≤ t.capacity_ := by
      rw [List.length_cons] at hr
      omega
    have hget : (l ++ m :: r).getD l.length {} = m := by simp
    have hdrop : (l ++ m :: r).drop (l.length + 1) = r := by simp
    rw [← hmid, List.take_left, hget, hdrop]
    have hsub : ∀ x ∈ l ++ r, x ∈ l ++ m :: r := by
      intro x hx
      rw [List.mem_append] at hx
      rw [List.mem_append, List.mem_cons]
      tauto
    obtain ⟨hleft, hright, hlay, hsame⟩ := writeInternal_writeInternal
      (t := { t with numOfNodes_ := t.numOfNodes_ + 1 }) ⟨g.1, g.2⟩ (b := b)
      (show b ≠ t.numOfNodes_ + 1 by omega) hl hrlen (fun x hx => hes x (hsub x hx)) hfirst
      (hes m (by simp)).2
    refine .split rfl hmid (not_le.mp hfit) ⟨rfl, rfl, rfl, rfl, Int.le_add_one le_rfl, ?_⟩ rfl
      hleft hright hl hrlen hlay
    intro j _ hj
    rw [List.mem_cons, List.mem_singleton, not_or] at hj
    have hcount : SameBlock t { t with numOfNodes_ := t.numOfNodes_ + 1 } j := .of_file rfl rfl rfl
    exact hcount.trans (hsame j hj.1 hj.2)

/-! ### The new root -/

theorem geometry_growRoot (g : t.Geometry) (p : Entry) : (t.growRoot p).Geometry := by
  unfold growRoot
  split_ifs
  · exact g
  · exact ⟨g.1, g.2⟩

theorem numOfNodes_le_growRoot (t : BPlusTree β) (p : Entry) :
    t.numOfNodes_ ≤ (t.growRoot p).numOfNodes_ := by
  unfold growRoot
  split_ifs
  · exact le_rfl
  · exact Int.le_add_one le_rfl

/-- What `growRoot` writes above a root that was split, and what it leaves alone. -/
theorem growRoot_written (g : t.Geometry) {k v : ℤ} (hroot : 0 ≤ t.rootBID_ ∧ t.rootBID_ ≤ v)
    (hv : 0 < v) (hle : v ≤ t.numOfNodes_) (hkr : IntCodec.InRange β k)
    (hn : IntCodec.InRange β (t.growRoot ⟨k, v⟩).numOfNodes_) :
    (t.growRoot ⟨k, v⟩).capacity_ = t.capacity_ ∧
      (t.growRoot ⟨k, v⟩).rootBID_ = t.numOfNodes_ + 1 ∧
      (t.growRoot ⟨k, v⟩).depth_ = t.depth_ + 1 ∧
      (t.growRoot ⟨k, v⟩).numOfNodes_ = t.numOfNodes_ + 1 ∧
      (t.growRoot ⟨k, v⟩).readInternal (t.numOfNodes_ + 1) = ⟨t.rootBID_, visible [⟨k, v⟩]⟩ ∧
      (t.growRoot ⟨k, v⟩).binFile_.layout
        ((t.growRoot ⟨k, v⟩).blockOffset (t.numOfNodes_ + 1)) = some .internal ∧
      ∀ j, j ≤ t.numOfNodes_ → SameBlock t (t.growRoot ⟨k, v⟩) j := by
  rw [growRoot, isNoSplit_of_pos hv, if_neg (by decide)] at hn ⊢
  replace hn : IntCodec.InRange β (t.numOfNodes_ + 1) := hn
  have g' : ({ t with numOfNodes_ := t.numOfNodes_ + 1 } : BPlusTree β).Geometry := ⟨g.1, g.2⟩
  have hlen : (([⟨k, v⟩] : List Entry).length : ℤ) ≤ t.capacity_ := g.capacity_pos
  refine ⟨rfl, rfl, rfl, rfl, ?_, layout_writeInternal _ _ _ _, ?_⟩
  · refine readInternal_writeInternal_visible g' (t.numOfNodes_ + 1) hlen ?_ ?_
    · intro x hx
      rw [List.mem_singleton.mp hx]
      constructor
      · exact hkr
      · show IntCodec.InRange β v
        exact IntCodec.inRange_of_le hv.le (by omega) hn
    · exact IntCodec.inRange_of_le hroot.1 (by omega) hn
  · intro j hj
    have hw := sameBlock_writeInternal g' (show j ≠ t.numOfNodes_ + 1 by omega) t.rootBID_ hlen
    have hcount : SameBlock t { t with numOfNodes_ := t.numOfNodes_ + 1 } j := .of_file rfl rfl rfl
    exact (hcount.trans hw).trans (.of_file rfl rfl rfl)

end BPlusTree

end Laboratory.IndexFile
