import Laboratory.IndexFile.ByteCodec
import Laboratory.IndexFile.Equiv.FileSize

/-!
# Closing and reopening an index

`Saved`: the header records the members and the file ends with the last node.  Sessions keep it
(`saved_insertAll`), and `getMetadata_saved` says what is read back: every member but the number
of nodes, which is one too small unless a node fills its block.

`Invisible` compares a history of sessions with the one session that inserts the same entries.
`invisible_iff` is the exact condition under which the two cannot be told apart.
-/

namespace Laboratory.IndexFile

namespace BPlusTree

variable {β : Type} [IntCodec β] {t t' u : BPlusTree β}

/-! ### What the file records -/

/-- The header records the members, and the file ends with the last node. -/
structure Saved (t : BPlusTree β) : Prop where
  blockSize_eq : t.binFile_.readInt 0 = t.blockSize_
  rootBID_eq : t.binFile_.readInt UNIT = t.rootBID_
  depth_eq : t.binFile_.readInt (2 * UNIT) = t.depth_
  size_eq : t.binFile_.size =
    if t.numOfNodes_ = 0 then HEADER_SIZE else t.blockOffset t.numOfNodes_ + t.nodeSize

theorem saved_createIndexFile {bs : ℤ} (hbs : IntCodec.InRange β bs)
    (hopen : getMetadata (createIndexFile bs) = .ok t) : t.Saved := by
  obtain ⟨-, hheader, hroot, hdepth, hnum, hfile⟩ := getMetadata_eq_ok hopen
  have hsize := (createIndexFile_header hbs).2.2.2
  have hn : t.numOfNodes_ = 0 := by rw [hnum, hsize, sub_self, Int.zero_tdiv]
  refine ⟨?_, ?_, ?_, ?_⟩
  · rw [hfile, hheader]
  · rw [hfile, hroot]
  · rw [hfile, hdepth]
  · rw [if_pos hn, hfile, hsize]

/-- Storing the metadata brings the header up to date. -/
theorem saved_writeMetadata (g : t.Geometry) (hn : 1 ≤ t.numOfNodes_)
    (h : t.EndsAt t.numOfNodes_) (hroot : IntCodec.InRange β t.rootBID_)
    (hdepth : IntCodec.InRange β t.depth_) : t.writeMetadata.Saved := by
  have hread := BinFile.readInt_writeInts_getElem t.binFile_ UNIT [t.rootBID_, t.depth_]
    (by simp [hroot, hdepth])
  have hhead := g.header_le_blockOffset hn
  have hpos := g.capacity_pos
  refine ⟨?_, hread 0 (by simp), hread 1 (by simp), ?_⟩
  · show (t.binFile_.writeInts UNIT [t.rootBID_, t.depth_]).readInt 0 = t.blockSize_
    rw [BinFile.readInt_writeInts _ _ _ (Or.inl (by decide))]
    exact h.header
  · show (t.binFile_.writeInts UNIT [t.rootBID_, t.depth_]).size = _
    rw [BinFile.size_writeInts _ _ _ (by simp), h.size_eq]
    -- the header lies before the end of the file
    have hne : t.writeMetadata.numOfNodes_ ≠ 0 := fun h0 => by
      have : t.numOfNodes_ = 0 := h0
      omega
    rw [if_neg hne]
    apply max_eq_left
    unfold nodeSize HEADER_SIZE HEADER_UNITS UNIT at *
    simp only [List.length_cons, List.length_nil]
    omega

theorem endsAt_insertEmpty (g : t.Geometry) (hn : t.numOfNodes_ = 0) (h : t.Saved) (e : Entry) :
    (t.insertEmpty e).EndsAt 1 := by
  have hlen : (([e] : List Entry).length : ℤ) ≤ t.capacity_ := g.capacity_pos
  obtain ⟨hhead, hsize⟩ := writeInts_node g le_rfl (leafInts_length g 0 hlen)
  refine ⟨hhead.trans h.blockSize_eq, hsize.trans ?_⟩
  have hfirst := g.header_le_blockOffset le_rfl
  have hpos := g.capacity_pos
  rw [h.size_eq, if_pos hn]
  apply max_eq_right
  unfold nodeSize UNIT
  omega

/-- The levels of a tree have a block each. -/
theorem lt_length_treeIds (t : BPlusTree β) (d : ℕ) (b : ℤ) : d < (t.treeIds d b).length := by
  induction d generalizing b with
  | zero => exact zero_lt_one
  | succ d ih =>
    have hle : (t.treeIds d (t.readInternal b).firstChild).length ≤
        ((t.readInternal b).children.flatMap (t.treeIds d)).length := by
      rw [InternalNode.children, Separators.children, List.flatMap_cons, List.length_append]
      exact Nat.le_add_right ..
    have hchild := ih (t.readInternal b).firstChild
    rw [treeIds, List.length_cons]
    omega

/-- What the header records fits into the file, if the number of nodes does. -/
theorem Represents.inRange_header {es : List Entry} (h : t.Represents es)
    (hfit : IntCodec.InRange β t.numOfNodes_) :
    IntCodec.InRange β t.rootBID_ ∧ IntCodec.InRange β t.depth_ := by
  cases h with
  | empty _ _ hroot hdepth =>
    rw [hroot, hdepth]
    exact ⟨IntCodec.inRange_zero, IntCodec.inRange_zero⟩
  | tree h =>
    have hroot := h.mem_ids.mp (mem_treeIds_self ..)
    have hdepth := lt_length_treeIds t t.depth_.toNat t.rootBID_
    rw [h.ids.length_eq, length_newIds] at hdepth
    exact ⟨IntCodec.inRange_of_le (by omega) hroot.2 hfit,
      IntCodec.inRange_of_le h.depth_nonneg (by omega) hfit⟩

/-- **No node is read past the end of a saved file.** -/
theorem Saved.node_le_size (h : t.Saved) (g : t.Geometry) {b : ℤ} (hb : 1 ≤ b)
    (hn : b ≤ t.numOfNodes_) : t.blockOffset b + t.nodeSize ≤ t.binFile_.size := by
  have hpos := g.capacity_pos
  obtain ⟨hlow, -⟩ := g.blockSize_bounds
  have hmul : (b - 1) * t.blockSize_ ≤ (t.numOfNodes_ - 1) * t.blockSize_ :=
    mul_le_mul_of_nonneg_right (by omega) (by omega)
  rw [h.size_eq, if_neg (by omega), blockOffset, blockOffset]
  omega

theorem Represents.saved_insert {es es' : List Entry} {e : Entry} (hr : t.Represents es)
    (h : t.Saved) (hr' : (t.insert e).Represents es')
    (hfit : IntCodec.InRange β (t.insert e).numOfNodes_) : (t.insert e).Saved := by
  obtain ⟨hroot, hdepth⟩ := hr'.inRange_header hfit
  cases hr with
  | empty g hn =>
    unfold BPlusTree.insert at hroot hdepth ⊢
    rw [if_pos hn] at hroot hdepth ⊢
    exact saved_writeMetadata ⟨g.1, g.2⟩ le_rfl (endsAt_insertEmpty g hn h e) hroot hdepth
  | tree hr =>
    obtain ⟨lo, hi, hr⟩ := hr.holdsBy
    have hone := hr.one_le_numOfNodes
    have hends : t.EndsAt t.numOfNodes_ :=
      ⟨h.blockSize_eq, h.size_eq.trans (if_neg (by omega))⟩
    have hle := numOfNodes_le_insertBelow t e t.depth_.toNat t.rootBID_
    obtain ⟨g', h'⟩ := endsAt_insertBelow hr.geometry hends e fun j hj => hr.mem_ids.mp hj
    rw [hr.insert_eq] at hroot hdepth ⊢
    refine saved_writeMetadata (geometry_growRoot g' _) ?_ (endsAt_growRoot g' h' (by omega) _)
      hroot hdepth
    exact (hone.trans hle).trans (numOfNodes_le_growRoot ..)

/-- What a reopened index believes about its number of nodes. -/
def reopenedNodes (t : BPlusTree β) : ℤ :=
  if t.numOfNodes_ = 0 ∨ t.blockSize_ % 8 = 4 then t.numOfNodes_ else t.numOfNodes_ - 1

/-- **Opening a closed index** reads every member back, the number of nodes only if a node fills
its block or there is none. -/
theorem getMetadata_saved (g : t.Geometry) (h : t.Saved) (hn : 0 ≤ t.numOfNodes_) :
    getMetadata t.binFile_ = .ok { t with numOfNodes_ := t.reopenedNodes } := by
  have hpos := g.capacity_pos
  obtain ⟨hlow, hhigh⟩ := g.blockSize_bounds
  have hcap : ¬ (t.blockSize_ - UNIT).tdiv (2 * UNIT) ≤ 0 := by
    rw [← g.capacity_eq]
    omega
  have hnum : (t.binFile_.size - HEADER_SIZE).tdiv t.blockSize_ = t.reopenedNodes := by
    rw [h.size_eq, reopenedNodes]
    by_cases h0 : t.numOfNodes_ = 0
    · rw [if_pos h0, if_pos (Or.inl h0), h0, sub_self, Int.zero_tdiv]
    · rw [if_neg h0]
      have hsub : t.blockOffset t.numOfNodes_ + t.nodeSize - HEADER_SIZE =
          4 + 8 * t.capacity_ + t.blockSize_ * (t.numOfNodes_ - 1) := by
        unfold blockOffset nodeSize UNIT
        ring
      have hnn : 0 ≤ t.blockSize_ * (t.numOfNodes_ - 1) :=
        mul_nonneg (by omega) (by omega)
      rw [hsub, Int.tdiv_eq_ediv_of_nonneg (by omega),
        Int.add_mul_ediv_left _ _ (by omega : t.blockSize_ ≠ 0)]
      -- the last node counts if it ends with its block
      by_cases hfull : t.blockSize_ % 8 = 4
      · have heq : 4 + 8 * t.capacity_ = t.blockSize_ := by omega
        rw [if_pos (Or.inr hfull), heq, Int.ediv_self (by omega)]
        ring
      · rw [if_neg (by tauto), Int.ediv_eq_zero_of_lt (by omega) (by omega)]
        ring
  unfold getMetadata
  dsimp only
  rw [h.blockSize_eq, h.rootBID_eq, h.depth_eq, if_neg hcap, hnum, ← g.capacity_eq]
  rfl

/-- **A session leaves a saved index.** -/
theorem saved_insertAll {old es : List Entry} (hr : t.Represents old) (h : t.Saved)
    (hes : Insertable β (old ++ es)) (hfit : IntCodec.InRange β (t.insertAll es).numOfNodes_) :
    (t.insertAll es).Saved := by
  induction es generalizing t old with
  | nil => exact h
  | cons e es ih =>
    have happ : old ++ e :: es = old ++ [e] ++ es := by simp
    rw [happ] at hes
    have hfit' : IntCodec.InRange β (t.insertAll ([e] ++ es)).numOfNodes_ := hfit
    have hone := inRange_insertAll hr.numOfNodes_nonneg hfit'
    have hstep : (t.insertAll [e]).Represents (old ++ [e]) :=
      represents_insertAll hr (hes.of_append) hr.numOfNodes_nonneg hone
    exact ih hstep (hr.saved_insert h hstep hone) hes hfit

/-! ### Histories of sessions -/

/-- Two indexes that answer every question alike. -/
def Agree (t u : BPlusTree β) : Prop :=
  (∀ k, t.search k = u.search k) ∧
    ∀ fuel first last, t.rangeSearch fuel first last = u.rangeSearch fuel first last

/-- Closing `t` and going on in new sessions cannot be told from going on with `u`, which is
never closed: the members are read back, and the answers agree after every insertion. -/
def Invisible (t u : BPlusTree β) : List (List Entry) → Prop
  | [] => True
  | es :: rest => ∃ t', getMetadata t.binFile_ = .ok t' ∧ t'.rootBID_ = t.rootBID_ ∧
      t'.depth_ = t.depth_ ∧ t'.numOfNodes_ = t.numOfNodes_ ∧
      (∀ n, Agree (t'.insertAll (es.take n)) (u.insertAll (es.take n))) ∧
      Invisible (t'.insertAll es) (u.insertAll es) rest

theorem Agree.refl (t : BPlusTree β) : Agree t t := ⟨fun _ => rfl, fun _ _ _ => rfl⟩

theorem numOfNodes_insertAll_eq_zero (hn : 0 ≤ t.numOfNodes_) (es : List Entry) :
    (t.insertAll es).numOfNodes_ = 0 ↔ t.numOfNodes_ = 0 ∧ es = [] := by
  cases es with
  | nil => exact (and_iff_left rfl).symm
  | cons e es =>
    have hone : 1 ≤ (t.insert e).numOfNodes_ := by
      by_cases h0 : t.numOfNodes_ = 0
      · unfold BPlusTree.insert
        rw [if_pos h0]
        exact le_rfl
      · have := numOfNodes_le_insert t e
        omega
    have hle := numOfNodes_le_insertAll (t.insert e) es
    constructor
    · intro h0
      have : ((t.insert e).insertAll es).numOfNodes_ = 0 := h0
      omega
    · rintro ⟨-, hes⟩
      cases hes

omit [IntCodec β] in
/-- A reopened index is the closed one exactly when it counts its nodes right. -/
theorem reopenedNodes_eq_iff :
    t.reopenedNodes = t.numOfNodes_ ↔ t.numOfNodes_ = 0 ∨ t.blockSize_ % 8 = 4 := by
  unfold reopenedNodes
  split_ifs with h
  · exact iff_of_true rfl h
  · exact iff_of_false (by omega) h

omit [IntCodec β] in
/-- "All but the last are empty", from the front. -/
theorem forall_dropLast_cons {es : List Entry} {rest : List (List Entry)} :
    (∀ x ∈ (es :: rest).dropLast, x = []) ↔
      rest = [] ∨ es = [] ∧ ∀ x ∈ rest.dropLast, x = [] := by
  cases rest with
  | nil => simp
  | cons x rest => simp [List.dropLast_cons_of_ne_nil]

/-- One reopen after another: the condition on the sessions that follow. -/
theorem invisible_self_iff {old : List Entry} (hr : t.Represents old) (h : t.Saved)
    {rest : List (List Entry)} (hes : Insertable β (old ++ rest.flatten))
    (hfit : IntCodec.InRange β (t.insertAll rest.flatten).numOfNodes_) :
    Invisible t t rest ↔ t.blockSize_ % 8 = 4 ∨ rest = [] ∨
      t.numOfNodes_ = 0 ∧ ∀ es ∈ rest.dropLast, es = [] := by
  induction rest generalizing t old with
  | nil => simp [Invisible]
  | cons es rest ih =>
    have hn := hr.numOfNodes_nonneg
    have hopen := getMetadata_saved hr.geometry h hn
    rw [List.flatten_cons, ← List.append_assoc] at hes
    rw [List.flatten_cons] at hfit
    have hbefore := inRange_insertAll hn hfit
    have hstep := represents_insertAll hr hes.of_append hn hbefore
    rw [insertAll_append] at hfit
    have hrest := ih hstep (saved_insertAll hr h hes.of_append hbefore) hes hfit
    rw [numOfNodes_insertAll_eq_zero hn, blockSize_insertAll] at hrest
    rw [forall_dropLast_cons]
    constructor
    · rintro ⟨t', hopen', -, -, hnum, -, hinv⟩
      obtain rfl := Except.ok.inj (hopen.symm.trans hopen')
      have hnum' : t.reopenedNodes = t.numOfNodes_ := hnum
      have hself : ({ t with numOfNodes_ := t.reopenedNodes } : BPlusTree β) = t := by rw [hnum']
      rw [hself, hrest] at hinv
      have := reopenedNodes_eq_iff.mp hnum'
      tauto
    · intro hcond
      have hnum : t.reopenedNodes = t.numOfNodes_ := by
        rw [reopenedNodes_eq_iff]
        rcases hcond with hbs | hnil | ⟨h0, -⟩
        · exact Or.inr hbs
        · cases hnil
        · exact Or.inl h0
      rw [hnum] at hopen
      refine ⟨t, hopen, rfl, rfl, rfl, fun n => Agree.refl _, hrest.mpr ?_⟩
      rcases hcond with hbs | hnil | ⟨h0, hrest' | ⟨hes', hlast⟩⟩
      · exact Or.inl hbs
      · cases hnil
      · exact Or.inr (Or.inl hrest')
      · exact Or.inr (Or.inr ⟨⟨h0, hes'⟩, hlast⟩)

/-- **When reopening is invisible**: a history of sessions on a fresh index, the first one
`first`, cannot be told from one session exactly when a node fills its block, or when nothing was
inserted before the last session. -/
theorem invisible_iff {bs : ℤ} (hbs : IntCodec.InRange β bs)
    (hopen : getMetadata (createIndexFile bs) = .ok t) (first : List Entry)
    (rest : List (List Entry)) (hes : Insertable β (first ++ rest.flatten))
    (hfit : IntCodec.InRange β (t.insertAll (first ++ rest.flatten)).numOfNodes_) :
    Invisible (t.insertAll first) (t.insertAll first) rest ↔
      bs % 8 = 4 ∨ ∀ es ∈ (first :: rest).dropLast, es = [] := by
  have h0 := represents_createIndexFile hbs hopen
  have hsaved := saved_createIndexFile hbs hopen
  have hn := h0.numOfNodes_nonneg
  obtain ⟨-, hblockSize, -, -, hnum, -⟩ := getMetadata_eq_ok hopen
  obtain ⟨hheader, -, -, hsize⟩ := createIndexFile_header hbs
  rw [hheader] at hblockSize
  have hempty : t.numOfNodes_ = 0 := by rw [hnum, hsize, sub_self, Int.zero_tdiv]
  have hbefore := inRange_insertAll hn hfit
  rw [insertAll_append] at hfit
  rw [invisible_self_iff (represents_insertAll h0 hes.of_append hn hbefore)
      (saved_insertAll h0 hsaved hes.of_append hbefore) hes hfit,
    blockSize_insertAll, hblockSize, numOfNodes_insertAll_eq_zero hn, forall_dropLast_cons]
  tauto

/-- Blocks of 16 bytes whose nodes take 12: the reopened index believes to be empty. -/
theorem reopen_loses_entry :
    ¬ Invisible (insertAll ⟨16, 0, 0, 1, 0, (createIndexFile 16 : BinFile UInt8)⟩ [⟨1, 1⟩])
        (insertAll ⟨16, 0, 0, 1, 0, (createIndexFile 16 : BinFile UInt8)⟩ [⟨1, 1⟩]) [[]] ∧
      (insertAll ⟨16, 0, 0, 1, 0, (createIndexFile 16 : BinFile UInt8)⟩ [⟨1, 1⟩]).search 1 = 1 ∧
      (getMetadata (insertAll ⟨16, 0, 0, 1, 0, (createIndexFile 16 : BinFile UInt8)⟩
        [⟨1, 1⟩]).binFile_).map (fun t => (t.numOfNodes_, t.search 1)) = .ok (0, -1) := by
  refine ⟨?_, by decide, rfl⟩
  rintro ⟨t', hopen, -, -, hnum, -⟩
  obtain rfl := Except.ok.inj hopen
  exact absurd hnum (by decide)

/-- Blocks of 20 bytes are filled by their nodes. -/
theorem invisible_iff_twenty :
    Invisible (insertAll ⟨20, 0, 0, 2, 0, (createIndexFile 20 : BinFile UInt8)⟩ [⟨1, 1⟩])
        (insertAll ⟨20, 0, 0, 2, 0, (createIndexFile 20 : BinFile UInt8)⟩ [⟨1, 1⟩])
        [[⟨2, 2⟩], [⟨3, 3⟩]] :=
  (invisible_iff (by decide) (show getMetadata (createIndexFile 20) = .ok _ from rfl) _ _
    (by decide) (by decide)).mpr (Or.inl (by decide))

end BPlusTree

end Laboratory.IndexFile
