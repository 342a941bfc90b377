import Laboratory.IndexFile.Equiv.LeafChain

/-!
# Every block is the child of one node

`Owned t roots`: every block is a child of exactly one internal node, but for the blocks `roots`,
which are children of none.  Between the steps of an insertion these are the root and the block that
was split off last; after the insertion it is the root alone (`Linked.owned_insert`).  Unlike the
ownership of `WellFormed`, this asks nothing of the order of the separators, so it holds in every
session whose keys are not zero, also with repeated keys (`owned_insertAll`).
-/

namespace Laboratory.IndexFile

/-- Two functions that differ at one element, mapped over a list that has the element once. -/
theorem flatMap_exchange {ids : List ℤ} {f g : ℤ → List ℤ} {b : ℤ} (hnodup : ids.Nodup)
    (hb : b ∈ ids) (h : ∀ j ∈ ids, j ≠ b → g j = f j) :
    (ids.flatMap g ++ f b).Perm (ids.flatMap f ++ g b) := by
  obtain ⟨A, B, rfl⟩ := List.append_of_mem hb
  obtain ⟨-, hbB, hAB⟩ := List.nodup_append.mp hnodup
  have hA : A.flatMap g = A.flatMap f := by
    apply List.flatMap_congr
    intro j hj
    exact h j (List.mem_append_left _ hj) (hAB j hj b (List.mem_cons_self ..))
  have hB : B.flatMap g = B.flatMap f := by
    apply List.flatMap_congr
    intro j hj
    refine h j (List.mem_append_right _ (List.mem_cons_of_mem _ hj)) ?_
    rintro rfl
    exact (List.nodup_cons.mp hbB).1 hj
  rw [List.flatMap_append, List.flatMap_append, List.flatMap_cons, List.flatMap_cons, hA, hB]
  -- the two sides hold the same four parts
  apply List.perm_iff_count.mpr
  intro x
  simp only [List.count_append]
  omega

namespace BPlusTree

variable {β : Type} [IntCodec β] {t t' : BPlusTree β} {height height' : ℤ → ℕ} {ls : List ℤ}
  {es : List Entry} {roots roots' : List ℤ} {b : ℤ} {d : ℕ} {p e : Entry}
  {r : BPlusTree β × Entry}

/-- The children of a block: none if it is laid out as a leaf. -/
def kids (t : BPlusTree β) (b : ℤ) : List ℤ :=
  if t.binFile_.layout (t.blockOffset b) = some .internal then (t.readInternal b).children else []

/-- **The ownership of the blocks**: every block but the `roots` is the child of one node. -/
def Owned (t : BPlusTree β) (roots : List ℤ) : Prop :=
  ((newIds 0 t.numOfNodes_).flatMap t.kids ++ roots).Perm (newIds 0 t.numOfNodes_)

/-- The block that a step has split off and that no node has taken in yet. -/
def splitOff (promoted : Entry) : List ℤ :=
  if isNoSplit promoted then [] else [promoted.value]

theorem splitOff_NO_SPLIT : splitOff NO_SPLIT = [] := rfl

theorem splitOff_of_pos {k nb : ℤ} (h : 0 < nb) : splitOff ⟨k, nb⟩ = [nb] := by
  rw [splitOff, isNoSplit_of_pos h, if_neg (by decide)]

theorem kids_of_leaf (h : t.binFile_.layout (t.blockOffset b) = some .leaf) : t.kids b = [] := by
  rw [kids, h, if_neg (by decide)]

theorem kids_of_internal (h : t.binFile_.layout (t.blockOffset b) = some .internal) :
    t.kids b = (t.readInternal b).children := by
  rw [kids, if_pos h]

theorem SameBlock.kids (h : SameBlock t t' b) : t'.kids b = t.kids b := by
  unfold BPlusTree.kids
  rw [h.layout, h.internal]

/-- What rewriting the block `b` and adding new blocks does to the ownership: they have the children
of `b` and those they have `taken` in. -/
theorem Owned.rewritten (h : t.Owned roots) (taken : List ℤ) (hb : 1 ≤ b ∧ b ≤ t.numOfNodes_)
    (hle : t.numOfNodes_ ≤ t'.numOfNodes_)
    (hframe : ∀ j, 1 ≤ j → j ≤ t.numOfNodes_ → j ≠ b → SameBlock t t' j)
    (hkids : ((newIds t.numOfNodes_ t'.numOfNodes_).flatMap t'.kids ++ t'.kids b).Perm
      (t.kids b ++ taken))
    (hroots : (taken ++ roots').Perm (roots ++ newIds t.numOfNodes_ t'.numOfNodes_)) :
    t'.Owned roots' := by
  have hexchange := flatMap_exchange (f := t.kids) (g := t'.kids) (nodup_newIds 0 t.numOfNodes_)
    (mem_newIds.mpr (show 0 + 1 ≤ b ∧ b ≤ t.numOfNodes_ from hb)) fun j hj hjb => by
      obtain ⟨h1, h2⟩ := mem_newIds.mp hj
      exact (hframe j h1 h2 hjb).kids
  unfold Owned at h ⊢
  rw [newIds_trans (show (0 : ℤ) ≤ t.numOfNodes_ by omega) hle, List.flatMap_append]
  apply List.perm_iff_count.mpr
  intro x
  have h1 := h.count_eq x
  have h2 := hexchange.count_eq x
  have h3 := hkids.count_eq x
  have h4 := hroots.count_eq x
  simp only [List.count_append] at h1 h2 h3 h4 ⊢
  omega

/-- A property holds of as many blocks as children and roots. -/
theorem Owned.countP_eq (h : t.Owned roots) (q : ℤ → Bool) :
    ((newIds 0 t.numOfNodes_).flatMap t.kids ++ roots).countP q =
      (newIds 0 t.numOfNodes_).countP q :=
  List.Perm.countP_eq q h

/-- Changes outside the blocks keep the ownership. -/
theorem Owned.congr (h : t.Owned roots) (hnum : t'.numOfNodes_ = t.numOfNodes_)
    (hsame : ∀ j, 1 ≤ j → SameBlock t t' j) : t'.Owned roots := by
  unfold Owned at h ⊢
  rw [hnum, List.flatMap_congr fun j hj => (hsame j (mem_newIds.mp hj).1).kids]
  exact h

/-! ### The promoted keys -/

theorem LeafWritten.key_ne_zero {next : ℤ} (hr : LeafWritten t b next es r)
    (hnz : ∀ x ∈ es, x.key ≠ 0) : r.2 = NO_SPLIT ∨ r.2.key ≠ 0 := by
  cases hr with
  | kept => exact .inl rfl
  | @split _ l r x happ => exact .inr (hnz x (by rw [happ]; simp))

theorem NodeWritten.key_ne_zero {first : ℤ} (hr : NodeWritten t b first es r)
    (hnz : ∀ x ∈ es, x.key ≠ 0) : r.2 = NO_SPLIT ∨ r.2.key ≠ 0 := by
  cases hr with
  | kept => exact .inl rfl
  | @split _ l r m happ => exact .inr (hnz m (by rw [happ]; simp))

/-- The entries of a leaf and a new one have no key `0`. -/
theorem key_ne_zero_of_mem_sorted_leaf (he : e.key ≠ 0) :
    ∀ x ∈ sortEntries ((t.readLeaf b).entries ++ [e]), x.key ≠ 0 := by
  intro x hx
  rcases value_mem_of_mem_sortEntries hx with hx | rfl
  · exact key_ne_zero_of_mem_readLeaf hx
  · exact he

/-- The separators of a node and a promoted one have no key `0`. -/
theorem key_ne_zero_of_mem_sorted_node (hp : p.key ≠ 0) :
    ∀ x ∈ sortEntries ((t.readInternal b).separators ++ [p]), x.key ≠ 0 := by
  intro x hx
  rcases value_mem_of_mem_sortEntries hx with hx | rfl
  · exact key_ne_zero_of_mem_readInternal hx
  · exact hp

/-! ### The steps of an insertion -/

/-- Writing a leaf brings a new root if the leaf is split. -/
theorem LeafWritten.owned {next : ℤ} (hr : LeafWritten t b next es r) (h : t.Owned roots)
    (hb : 1 ≤ b ∧ b ≤ t.numOfNodes_)
    (hlay : t.binFile_.layout (t.blockOffset b) = some .leaf) :
    r.1.Owned (splitOff r.2 ++ roots) := by
  cases hr with
  | @kept t' _ hw hnum _ hlay' =>
    refine h.rewritten [] hb hw.numOfNodes_le
      (fun j _ hj hjb => hw.frame j hj (by simpa using hjb)) ?_ ?_
    · rw [kids_of_leaf hlay, kids_of_leaf hlay', newIds_eq_nil hnum]
      rfl
    · rw [newIds_eq_nil hnum, List.append_nil]
      rfl
  | @split t' l r x _ _ _ hw hnum _ _ hlay' =>
    refine h.rewritten [] hb hw.numOfNodes_le (fun j _ hj hjb => ?_) ?_ ?_
    · refine hw.frame j hj ?_
      rw [List.mem_cons, List.mem_singleton, not_or]
      exact ⟨hjb, by omega⟩
    · rw [kids_of_leaf hlay, kids_of_leaf (hlay' b (by simp)), newIds_succ hnum,
        List.flatMap_singleton, kids_of_leaf (hlay' _ (by simp))]
    · -- the leaf that was split off has no parent yet
      rw [newIds_succ hnum, splitOff_of_pos (by omega), List.nil_append]
      exact List.perm_append_comm

/-- The children of a node that has taken in a separator are the old ones and the new one. -/
theorem children_sortEntries (first : ℤ) (ss : List Entry) (p : Entry) :
    (Separators.children Entry.value first (sortEntries (ss ++ [p]))).Perm
      (Separators.children Entry.value first ss ++ [p.value]) := by
  have hperm := ((sortEntries_perm (ss ++ [p])).map Entry.value).cons first
  rwa [List.map_append] at hperm

/-- Writing a node takes in the block that was split off, and brings a new root if the node is
split. -/
theorem NodeWritten.owned
    (hr : NodeWritten t b (t.readInternal b).firstChild
      (sortEntries ((t.readInternal b).separators ++ [p])) r)
    (h : t.Owned (p.value :: roots)) (hb : 1 ≤ b ∧ b ≤ t.numOfNodes_)
    (hlay : t.binFile_.layout (t.blockOffset b) = some .internal) (hp : p.key ≠ 0) :
    r.1.Owned (splitOff r.2 ++ roots) := by
  have hnz := key_ne_zero_of_mem_sorted_node (t := t) (b := b) hp
  have hchildren := children_sortEntries (t.readInternal b).firstChild
    (t.readInternal b).separators p
  generalize sortEntries ((t.readInternal b).separators ++ [p]) = ss at *
  cases hr with
  | @kept t' hw hnum hread _ hlay' =>
    refine h.rewritten [p.value] hb hw.numOfNodes_le
      (fun j _ hj hjb => hw.frame j hj (by simpa using hjb)) ?_ ?_
    · rw [kids_of_internal hlay, kids_of_internal hlay', newIds_eq_nil hnum, hread,
        visible_eq_self hnz]
      exact hchildren
    · rw [newIds_eq_nil hnum, List.append_nil]
      rfl
  | @split t' l r m happ _ _ hw hnum hleft hright _ _ hlay' =>
    -- the halves share the children, so that all are owned once
    subst happ
    rw [Separators.children_append_cons] at hchildren
    refine h.rewritten [p.value] hb hw.numOfNodes_le (fun j _ hj hjb => ?_) ?_ ?_
    · refine hw.frame j hj ?_
      rw [List.mem_cons, List.mem_singleton, not_or]
      exact ⟨hjb, by omega⟩
    · rw [kids_of_internal hlay, kids_of_internal (hlay' b (by simp)), newIds_succ hnum,
        List.flatMap_singleton, kids_of_internal (hlay' _ (by simp)), hleft, hright,
        visible_eq_self fun x hx => hnz x (List.mem_append_left _ hx),
        visible_eq_self fun x hx => hnz x (by simp [hx])]
      exact List.perm_append_comm.trans hchildren
    · rw [newIds_succ hnum, splitOff_of_pos (by omega), List.singleton_append,
        List.singleton_append, List.cons_append]
      exact (List.perm_append_singleton _ _).symm.cons p.value

/-! ### An insertion -/

/-- No key `0` is promoted. -/
theorem Leveled.promoted_key_ne_zero (h : t.Leveled height)
    (he : IntCodec.InRange β e.key ∧ IntCodec.InRange β e.value) (hne : e.key ≠ 0)
    (hb : 1 ≤ b ∧ b ≤ t.numOfNodes_) (hd : height b = d)
    (hfit : IntCodec.InRange β (t.insertBelow e d b).1.numOfNodes_) :
    (t.insertBelow e d b).2 = NO_SPLIT ∨ (t.insertBelow e d b).2.key ≠ 0 := by
  refine h.insertBelow_rec he (motive := fun _ _ r => r.2 = NO_SPLIT ∨ r.2.key ≠ 0) ?_ ?_ ?_
    hb hd hfit
  · intro b r _ _ hr
    exact hr.key_ne_zero (key_ne_zero_of_mem_sorted_leaf hne)
  · intro d b c r _ _ hno _
    exact .inl hno
  · intro d b c r _ r' _ hne hr' hkey
    exact hr'.key_ne_zero (key_ne_zero_of_mem_sorted_node (hkey.resolve_left hne))

/-- **An insertion below a block** leaves no other root than the block it has split off. -/
theorem Leveled.owned_insertBelow (h : t.Leveled height) (howned : t.Owned roots)
    (he : IntCodec.InRange β e.key ∧ IntCodec.InRange β e.value) (hne : e.key ≠ 0)
    (hb : 1 ≤ b ∧ b ≤ t.numOfNodes_) (hd : height b = d)
    (hfit : IntCodec.InRange β (t.insertBelow e d b).1.numOfNodes_) :
    (t.insertBelow e d b).1.Owned (splitOff (t.insertBelow e d b).2 ++ roots) := by
  refine h.insertBelow_rec he (motive := fun _ _ r => r.1.Owned (splitOff r.2 ++ roots))
    ?_ ?_ ?_ hb hd hfit
  · intro b r hb hb0 hr
    refine hr.owned howned hb ?_
    rw [h.layout b hb.1 hb.2, hb0]
    rfl
  · intro d b c r _ _ _ hr
    exact hr
  · intro d b c r height₁ r' hnode hsplit hr' hr
    have hstep := hnode.grown.stepped
    have hkey := h.promoted_key_ne_zero he hne hnode.child hnode.height_child
      (hnode.eq ▸ hnode.inRange)
    rw [← hnode.eq] at hkey
    obtain ⟨hlt, -, -⟩ := hstep.promoted.resolve_left hsplit
    have hnode1 := hnode.node
    obtain ⟨w, k, v⟩ := r
    -- the node takes in the block that was split off below it
    rw [splitOff_of_pos (show 0 < v by dsimp only at hlt; omega)] at hr
    refine hr'.owned hr ⟨hnode1.1, hnode1.2.trans hstep.numOfNodes_le⟩ ?_ (hkey.resolve_left hsplit)
    rw [hnode.same.layout, h.layout b hnode1.1 hnode1.2, hnode.height_node]
    rfl

/-- **An insertion keeps the ownership**: the root alone is the child of no node. -/
theorem Linked.owned_insert (h : t.Linked height ls es) (howned : t.Owned [t.rootBID_])
    (he : IntCodec.InRange β e.key ∧ IntCodec.InRange β e.value) (hne : e.key ≠ 0)
    (hfit : IntCodec.InRange β (t.insert e).numOfNodes_) :
    (t.insert e).Owned [(t.insert e).rootBID_] := by
  have hroot := h.leveled.root
  obtain ⟨hinner, hgrows⟩ := h.inRange_growRoot hfit
  have hbelow := h.leveled.owned_insertBelow howned he hne hroot h.leveled.height_root hinner
  have hkey := h.leveled.promoted_key_ne_zero he hne hroot h.leveled.height_root hinner
  have hkeyFits := inRange_key_insertBelow t he.1 t.depth_.toNat t.rootBID_
  obtain ⟨height₁, hgrown⟩ := h.leveled.insertBelow he hroot h.leveled.height_root hinner
  have hstep := hgrown.stepped
  have hle := hstep.numOfNodes_le
  rw [h.insert_eq]
  generalize t.insertBelow e t.depth_.toNat t.rootBID_ = r at *
  refine Owned.congr (t := r.1.growRoot r.2) ?_ rfl fun j hj =>
    sameBlock_writeMetadata (geometry_growRoot hstep.leveled.geometry _) hj
  show (r.1.growRoot r.2).Owned [(r.1.growRoot r.2).rootBID_]
  by_cases hno : r.2 = NO_SPLIT
  · -- the root stays the root
    rw [hno, splitOff_NO_SPLIT, List.nil_append] at hbelow
    rw [hno, growRoot, if_pos isNoSplit_NO_SPLIT, hstep.rootBID_eq]
    exact hbelow
  · -- the new root takes in the old one and the block that was split off
    obtain ⟨-, hrootBID, -, hnum, hread, hlay, hsame⟩ := hstep.growRoot_written h.leveled hkeyFits
      hgrows hno
    obtain ⟨hlt, -, -⟩ := hstep.promoted.resolve_left hno
    obtain ⟨w, k, v⟩ := r
    dsimp only at *
    rw [splitOff_of_pos (show 0 < v by omega)] at hbelow
    have hkids : (w.growRoot ⟨k, v⟩).kids (w.numOfNodes_ + 1) = [t.rootBID_, v] := by
      rw [kids_of_internal hlay, hread, visible_eq_self (by simpa using hkey.resolve_left hno),
        hstep.rootBID_eq]
      rfl
    refine hbelow.rewritten (b := t.rootBID_) [t.rootBID_, v] ⟨hroot.1, hroot.2.trans hle⟩
      (by omega) (fun j _ hj _ => hsame j hj) ?_ ?_
    · rw [newIds_succ hnum, List.flatMap_singleton, hkids, (hsame _ (hroot.2.trans hle)).kids]
      exact List.perm_append_comm
    · rw [newIds_succ hnum, hrootBID]
      exact (List.Perm.swap v t.rootBID_ []).append_right _

/-- **The ownership of the blocks in every session** without the key `0`: every block but the root
is the child of exactly one node. -/
theorem owned_insertAll {bs : ℤ} (hbs : IntCodec.InRange β bs)
    (hopen : getMetadata (createIndexFile bs) = .ok t) (hes : Entry.AllInRange β es)
    (hfit : IntCodec.InRange β (t.insertAll es).numOfNodes_) (hnil : es ≠ [])
    (hne : ∀ e ∈ es, e.key ≠ 0) : (t.insertAll es).Owned [(t.insertAll es).rootBID_] := by
  refine insertAll_rec (S := fun e => e.key ≠ 0) (P := fun t => t.Owned [t.rootBID_]) hbs hopen
    (fun e _ _ => ?_) ?_ hes hfit hnil hne
  · -- the root is a leaf
    have hleaf : (t.insertEmpty e).writeMetadata.kids 1 = [] :=
      kids_of_leaf (layout_writeLeaf { t with numOfNodes_ := 1, rootBID_ := 1 } 1 [e] 0)
    show ([1].flatMap (t.insertEmpty e).writeMetadata.kids ++ [1]).Perm [1]
    rw [List.flatMap_singleton, hleaf, List.nil_append]
  · intro t height ls es e h he hfit hne howned
    exact h.owned_insert howned he hne hfit

end BPlusTree

end Laboratory.IndexFile
