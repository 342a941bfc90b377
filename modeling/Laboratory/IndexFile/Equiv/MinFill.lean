import Laboratory.IndexFile.Equiv.Ownership
import Laboratory.IndexFile.Equiv.WellFormed

/-!
# Minimum fill and height

A split leaves both parts half full, and no step takes anything out of a block, so every block but
the root stays half full (`Linked.filled_insert`).  Since every block but the root is the child of
one node, each level of the tree is by a factor larger than the one above it
(`Filled.pow_le_levelSize`), which bounds the depth by the number of insertions.
`minFill_insertAll` is the result for every session without the key `0`.
-/

namespace Laboratory.IndexFile

/-- When each element of `l` with the property `q` brings at least `m` elements with the property
`p`, there are at least `m` times as many of the latter. -/
theorem mul_countP_le_countP_flatMap {α γ : Type*} {l : List α} {f : α → List γ} {q : α → Bool}
    {p : γ → Bool} {m : ℕ} (h : ∀ a ∈ l, q a → m ≤ (f a).countP p) :
    m * l.countP q ≤ (l.flatMap f).countP p := by
  induction l with
  | nil => simp
  | cons a l ih =>
    have htail := ih fun x hx => h x (List.mem_cons_of_mem _ hx)
    rw [List.flatMap_cons, List.countP_append, List.countP_cons]
    split_ifs with ha
    · have hhead := h a (List.mem_cons_self ..) ha
      rw [Nat.mul_add, Nat.mul_one]
      omega
    · rw [Nat.add_zero]
      omega

namespace BPlusTree

variable {β : Type} [IntCodec β] {t t' : BPlusTree β} {height height' : ℤ → ℕ} {ls : List ℤ}
  {es : List Entry} {b : ℤ} {d : ℕ} {p e : Entry} {r : BPlusTree β × Entry}

/-! ### Half full blocks -/

/-- The least fill of a block below the root.  A leaf is divided into halves, a node into halves
without the separator in the middle. -/
structure HalfFull (t : BPlusTree β) (b : ℤ) : Prop where
  leaf : t.binFile_.layout (t.blockOffset b) = some .leaf →
    (t.capacity_ + 1) / 2 ≤ (t.readLeaf b).entries.length
  internal : t.binFile_.layout (t.blockOffset b) = some .internal →
    t.capacity_ / 2 ≤ (t.readInternal b).separators.length

/-- **The fill of the blocks**: all but the root are half full, and the root has a separator unless
it is a leaf. -/
structure Filled (t : BPlusTree β) : Prop where
  half : ∀ b, 1 ≤ b → b ≤ t.numOfNodes_ → b ≠ t.rootBID_ → t.HalfFull b
  root : t.binFile_.layout (t.blockOffset t.rootBID_) = some .internal →
    1 ≤ (t.readInternal t.rootBID_).separators.length

theorem HalfFull.congr (h : t.HalfFull b) (hsame : SameBlock t t' b)
    (hcap : t'.capacity_ = t.capacity_) : t'.HalfFull b := by
  refine ⟨fun hlay => ?_, fun hlay => ?_⟩
  · rw [hsame.layout] at hlay
    rw [hsame.leaf, hcap]
    exact h.leaf hlay
  · rw [hsame.layout] at hlay
    rw [hsame.internal, hcap]
    exact h.internal hlay

theorem halfFull_of_leaf (hlay : t.binFile_.layout (t.blockOffset b) = some .leaf)
    (h : (t.capacity_ + 1) / 2 ≤ (t.readLeaf b).entries.length) : t.HalfFull b := by
  refine ⟨fun _ => h, fun hint => ?_⟩
  rw [hlay] at hint
  cases hint

theorem halfFull_of_internal (hlay : t.binFile_.layout (t.blockOffset b) = some .internal)
    (h : t.capacity_ / 2 ≤ (t.readInternal b).separators.length) : t.HalfFull b := by
  refine ⟨fun hleaf => ?_, fun _ => h⟩
  rw [hlay] at hleaf
  cases hleaf

omit [IntCodec β] in
/-- The left part of a split is the smaller one of a leaf, or as large as the right one. -/
theorem Geometry.splitIndex_eq (g : t.Geometry) :
    (t.splitIndex.toNat : ℤ) = (t.capacity_ + 1) / 2 := by
  have hpos := g.capacity_pos
  unfold splitIndex
  rw [Int.tdiv_eq_ediv_of_nonneg (by omega)]
  omega

/-- The metadata are no block. -/
theorem Filled.writeMetadata (h : t.Filled) (g : t.Geometry) (hroot : 1 ≤ t.rootBID_) :
    t.writeMetadata.Filled := by
  have hsame := sameBlock_writeMetadata g hroot
  refine ⟨fun j h1 h2 hj => (h.half j h1 h2 hj).congr (sameBlock_writeMetadata g h1) rfl,
    fun hlay => ?_⟩
  show 1 ≤ (t.writeMetadata.readInternal t.rootBID_).separators.length
  rw [hsame.internal]
  apply h.root
  rw [← hsame.layout]
  exact hlay

/-! ### The steps of an insertion -/

/-- What a step that writes the block `b` leaves of the fill: `b` has lost nothing, or was split
into halves. -/
structure KeepsFill (t : BPlusTree β) (b : ℤ) (r : BPlusTree β × Entry) : Prop where
  capacity_eq : r.1.capacity_ = t.capacity_
  others : ∀ j, 1 ≤ j → j ≤ r.1.numOfNodes_ → j ≠ b → (j ≤ t.numOfNodes_ → t.HalfFull j) →
    r.1.HalfFull j
  kept : r.2 = NO_SPLIT → (t.HalfFull b → r.1.HalfFull b) ∧
    (t.binFile_.layout (t.blockOffset b) = some .internal →
      (t.readInternal b).separators.length ≤ (r.1.readInternal b).separators.length)
  split : r.2 ≠ NO_SPLIT → r.1.HalfFull b

/-- The blocks that a step has not written keep their fill, when the new ones are half full. -/
theorem Rewritten.others {bs : List ℤ} (hw : Rewritten t t' bs)
    (hnew : ∀ j, t.numOfNodes_ < j → j ≤ t'.numOfNodes_ → t'.HalfFull j)
    (hbs : ∀ j ∈ bs, j = b ∨ t.numOfNodes_ < j) :
    ∀ j, 1 ≤ j → j ≤ t'.numOfNodes_ → j ≠ b → (j ≤ t.numOfNodes_ → t.HalfFull j) →
      t'.HalfFull j := by
  intro j _ hj hjb hold
  by_cases hjt : j ≤ t.numOfNodes_
  · refine (hold hjt).congr (hw.frame j hjt fun hmem => ?_) hw.capacity_eq
    have := (hbs j hmem).resolve_left hjb
    omega
  · exact hnew j (not_le.mp hjt) hj

/-- Writing a leaf keeps the fill. -/
theorem LeafWritten.keepsFill (g : t.Geometry)
    (hr : LeafWritten t b (t.readLeaf b).next (sortEntries ((t.readLeaf b).entries ++ [e])) r)
    (hb : 1 ≤ b ∧ b ≤ t.numOfNodes_) (hlay : t.binFile_.layout (t.blockOffset b) = some .leaf)
    (he : e.key ≠ 0) : KeepsFill t b r := by
  have hnz := key_ne_zero_of_mem_sorted_leaf (t := t) (b := b) he
  have hlen : (sortEntries ((t.readLeaf b).entries ++ [e])).length =
      (t.readLeaf b).entries.length + 1 := by
    rw [(sortEntries_perm _).length_eq, List.length_append, List.length_singleton]
  have hsplit := g.splitIndex_eq
  generalize sortEntries ((t.readLeaf b).entries ++ [e]) = es at *
  cases hr with
  | @kept t' _ hw hnum hread hlay' =>
    refine ⟨hw.capacity_eq, hw.others (fun j h1 h2 => ?_) (fun j hj => ?_), fun _ => ⟨fun h => ?_,
      fun hint => ?_⟩, fun hne => absurd rfl hne⟩
    · omega
    · exact .inl (List.mem_singleton.mp hj)
    · have hold := h.leaf hlay
      refine halfFull_of_leaf hlay' ?_
      rw [hread, live_eq_self hnz, hw.capacity_eq]
      dsimp only
      omega
    · rw [hlay] at hint
      cases hint
  | @split t' l r x happ hmid hlong hw hnum hleft hright hlay' =>
    subst happ
    rw [List.length_append] at hlong
    -- both halves of the leaf, of which the right one is the larger
    have hold : t'.HalfFull b := by
      refine halfFull_of_leaf (hlay' b (by simp)) ?_
      rw [hleft, live_eq_self fun y hy => hnz y (List.mem_append_left _ hy), hw.capacity_eq]
      dsimp only
      omega
    have hnew : t'.HalfFull (t.numOfNodes_ + 1) := by
      refine halfFull_of_leaf (hlay' _ (by simp)) ?_
      rw [hright, live_eq_self fun y hy => hnz y (List.mem_append_right _ hy), hw.capacity_eq]
      dsimp only
      omega
    refine ⟨hw.capacity_eq, hw.others (fun j h1 h2 => ?_) (fun j hj => ?_), fun hno => ?_,
      fun _ => hold⟩
    · obtain rfl : j = t.numOfNodes_ + 1 := by omega
      exact hnew
    · rw [List.mem_cons, List.mem_singleton] at hj
      omega
    · have hval : t.numOfNodes_ + 1 = -1 := congrArg Entry.value hno
      omega

/-- Writing a node keeps the fill. -/
theorem NodeWritten.keepsFill (g : t.Geometry)
    (hr : NodeWritten t b (t.readInternal b).firstChild
      (sortEntries ((t.readInternal b).separators ++ [p])) r)
    (hb : 1 ≤ b ∧ b ≤ t.numOfNodes_)
    (hlay : t.binFile_.layout (t.blockOffset b) = some .internal) (hp : p.key ≠ 0) :
    KeepsFill t b r := by
  have hnz := key_ne_zero_of_mem_sorted_node (t := t) (b := b) hp
  have hlen : (sortEntries ((t.readInternal b).separators ++ [p])).length =
      (t.readInternal b).separators.length + 1 := by
    rw [(sortEntries_perm _).length_eq, List.length_append, List.length_singleton]
  have hsplit := g.splitIndex_eq
  have hcap := g.capacity_pos
  generalize sortEntries ((t.readInternal b).separators ++ [p]) = ss at *
  cases hr with
  | @kept t' hw hnum hread _ hlay' =>
    have hmore : (t.readInternal b).separators.length ≤ (t'.readInternal b).separators.length := by
      rw [hread, visible_eq_self hnz]
      dsimp only
      omega
    refine ⟨hw.capacity_eq, hw.others (fun j h1 h2 => ?_) (fun j hj => ?_), fun _ => ⟨fun h => ?_,
      fun _ => hmore⟩, fun hne => absurd rfl hne⟩
    · omega
    · exact .inl (List.mem_singleton.mp hj)
    · have hold := h.internal hlay
      have hnow : t'.capacity_ / 2 ≤ (t'.readInternal b).separators.length := by
        rw [hw.capacity_eq]
        omega
      exact halfFull_of_internal hlay' hnow
  | @split t' l r m happ hmid hlong hw hnum hleft hright _ _ hlay' =>
    subst happ
    rw [List.length_append, List.length_cons] at hlong
    -- the separator in the middle goes to neither half
    have hold : t'.HalfFull b := by
      refine halfFull_of_internal (hlay' b (by simp)) ?_
      rw [hleft, visible_eq_self fun y hy => hnz y (List.mem_append_left _ hy), hw.capacity_eq]
      dsimp only
      omega
    have hnew : t'.HalfFull (t.numOfNodes_ + 1) := by
      refine halfFull_of_internal (hlay' _ (by simp)) ?_
      rw [hright, visible_eq_self fun y hy => hnz y (by simp [hy]), hw.capacity_eq]
      dsimp only
      omega
    refine ⟨hw.capacity_eq, hw.others (fun j h1 h2 => ?_) (fun j hj => ?_), fun hno => ?_,
      fun _ => hold⟩
    · obtain rfl : j = t.numOfNodes_ + 1 := by omega
      exact hnew
    · rw [List.mem_cons, List.mem_singleton] at hj
      omega
    · have hval : t.numOfNodes_ + 1 = -1 := congrArg Entry.value hno
      omega

/-- A node whose child was not split. -/
theorem KeepsFill.node {c : ℤ} (h : KeepsFill t c r) (hno : r.2 = NO_SPLIT)
    (hc : c ≤ t.numOfNodes_) (hsame : SameBlock t r.1 b) : KeepsFill t b r := by
  refine ⟨h.capacity_eq, fun j h1 h2 _ hj => ?_, fun _ => ⟨fun hb => hb.congr hsame h.capacity_eq,
    fun _ => ?_⟩, fun hne => absurd hno hne⟩
  · by_cases hjc : j = c
    · subst hjc
      exact (h.kept hno).1 (hj hc)
    · exact h.others j h1 h2 hjc hj
  · rw [hsame.internal]

/-- A node that was written after its child was split. -/
theorem KeepsFill.trans {c : ℤ} {r' : BPlusTree β × Entry} (h : KeepsFill t c r)
    (hne : r.2 ≠ NO_SPLIT) (hsame : SameBlock t r.1 b) (h' : KeepsFill r.1 b r') :
    KeepsFill t b r' := by
  refine ⟨h'.capacity_eq.trans h.capacity_eq, fun j h1 h2 hjb hj => ?_, fun hno => ⟨fun hb => ?_,
    fun hlay => ?_⟩, h'.split⟩
  · refine h'.others j h1 h2 hjb fun hjr => ?_
    by_cases hjc : j = c
    · subst hjc
      exact h.split hne
    · exact h.others j h1 hjr hjc hj
  · exact (h'.kept hno).1 (hb.congr hsame h.capacity_eq)
  · rw [← hsame.internal]
    refine (h'.kept hno).2 ?_
    rw [hsame.layout]
    exact hlay

/-! ### An insertion -/

/-- **An insertion below a block** keeps the fill. -/
theorem Leveled.keepsFill_insertBelow (h : t.Leveled height)
    (he : IntCodec.InRange β e.key ∧ IntCodec.InRange β e.value) (hne : e.key ≠ 0)
    (hb : 1 ≤ b ∧ b ≤ t.numOfNodes_) (hd : height b = d)
    (hfit : IntCodec.InRange β (t.insertBelow e d b).1.numOfNodes_) :
    KeepsFill t b (t.insertBelow e d b) := by
  refine h.insertBelow_rec he (motive := fun _ b r => KeepsFill t b r) ?_ ?_ ?_ hb hd hfit
  · intro b r hb hb0 hr
    refine hr.keepsFill h.geometry hb ?_ hne
    rw [h.layout b hb.1 hb.2, hb0]
    rfl
  · intro d b c r _ hnode hno hr
    exact hr.node hno hnode.child.2 hnode.same
  · intro d b c r height₁ r' hnode hsplit hr' hr
    have hstep := hnode.grown.stepped
    have hkey := h.promoted_key_ne_zero he hne hnode.child hnode.height_child
      (hnode.eq ▸ hnode.inRange)
    rw [← hnode.eq] at hkey
    have hb := hnode.node
    refine hr.trans hsplit hnode.same (hr'.keepsFill hstep.leveled.geometry
      ⟨hb.1, hb.2.trans hstep.numOfNodes_le⟩ ?_ (hkey.resolve_left hsplit))
    rw [hnode.same.layout, h.layout b hb.1 hb.2, hnode.height_node]
    rfl

/-- The fill after the root was written: it has lost no separator, or there is a new root with one
separator above its halves. -/
theorem Stepped.filled_growRoot {bs : List ℤ} (hstep : Stepped t height t.depth_.toNat bs r height')
    (h : t.Leveled height) (hkeeps : KeepsFill t t.rootBID_ r)
    (hkey : r.2 = NO_SPLIT ∨ r.2.key ≠ 0)
    (hkeyFits : r.2 = NO_SPLIT ∨ IntCodec.InRange β r.2.key)
    (hfit : IntCodec.InRange β (r.1.growRoot r.2).numOfNodes_) (hfill : t.Filled) :
    (r.1.growRoot r.2).Filled := by
  have hroot := h.root
  have hrootBID := hstep.rootBID_eq
  have hothers : ∀ j, 1 ≤ j → j ≤ r.1.numOfNodes_ → j ≠ t.rootBID_ → r.1.HalfFull j :=
    fun j h1 h2 hj => hkeeps.others j h1 h2 hj fun hjt => hfill.half j h1 hjt hj
  by_cases hno : r.2 = NO_SPLIT
  · rw [hno, BPlusTree.growRoot, if_pos isNoSplit_NO_SPLIT]
    refine ⟨fun j h1 h2 hj => hothers j h1 h2 (hrootBID ▸ hj), fun hlay => ?_⟩
    rw [hrootBID] at hlay ⊢
    -- the root is still laid out as it was
    have hlay' : t.binFile_.layout (t.blockOffset t.rootBID_) = some .internal := by
      rw [← hlay, h.layout _ hroot.1 hroot.2, ← hstep.keeps _ hroot.2]
      exact (hstep.leveled.layout _ hroot.1 (hroot.2.trans hstep.numOfNodes_le)).symm
    exact (hfill.root hlay').trans ((hkeeps.kept hno).2 hlay')
  · obtain ⟨hcap, hrootBID', -, hnum, hread, -, hsame⟩ :=
      hstep.growRoot_written h hkeyFits hfit hno
    refine ⟨fun j h1 h2 hj => ?_, fun _ => ?_⟩
    · rw [hrootBID'] at hj
      refine HalfFull.congr ?_ (hsame j (by omega)) hcap
      by_cases hjt : j = t.rootBID_
      · subst hjt
        exact hkeeps.split hno
      · exact hothers j h1 (by omega) hjt
    · rw [hrootBID', hread, visible_eq_self (by simpa using hkey.resolve_left hno)]
      exact le_rfl

/-- **An insertion keeps the fill.** -/
theorem Linked.filled_insert (h : t.Linked height ls es) (hfill : t.Filled)
    (he : IntCodec.InRange β e.key ∧ IntCodec.InRange β e.value) (hne : e.key ≠ 0)
    (hfit : IntCodec.InRange β (t.insert e).numOfNodes_) : (t.insert e).Filled := by
  have hroot := h.leveled.root
  obtain ⟨hinner, hgrows⟩ := h.inRange_growRoot hfit
  have hkeeps := h.leveled.keepsFill_insertBelow he hne hroot h.leveled.height_root hinner
  have hkey := h.leveled.promoted_key_ne_zero he hne hroot h.leveled.height_root hinner
  have hkeyFits := inRange_key_insertBelow t he.1 t.depth_.toNat t.rootBID_
  obtain ⟨height₁, hgrown⟩ := h.leveled.insertBelow he hroot h.leveled.height_root hinner
  obtain ⟨height₂, hlev, -⟩ := hgrown.stepped.growRoot h.leveled hkeyFits hgrows
  rw [h.insert_eq]
  exact (hgrown.stepped.filled_growRoot h.leveled hkeeps hkey hkeyFits hgrows hfill).writeMetadata
    hlev.geometry hlev.root.1

/-- The fill of every session without the key `0`. -/
theorem filled_insertAll {bs : ℤ} (hbs : IntCodec.InRange β bs)
    (hopen : getMetadata (createIndexFile bs) = .ok t) (hes : Entry.AllInRange β es)
    (hfit : IntCodec.InRange β (t.insertAll es).numOfNodes_) (hnil : es ≠ [])
    (hne : ∀ e ∈ es, e.key ≠ 0) : (t.insertAll es).Filled := by
  refine insertAll_rec (S := fun e => e.key ≠ 0) (P := Filled) hbs hopen (fun e _ _ => ?_) ?_
    hes hfit hnil hne
  · -- the root leaf is the only block
    have hlay : (t.insertEmpty e).writeMetadata.binFile_.layout
        ((t.insertEmpty e).writeMetadata.blockOffset 1) = some .leaf :=
      layout_writeLeaf { t with numOfNodes_ := 1, rootBID_ := 1 } 1 [e] 0
    refine ⟨fun b h1 h2 hb => absurd (le_antisymm h2 h1) hb, fun hint => ?_⟩
    have hroot : (t.insertEmpty e).writeMetadata.rootBID_ = 1 := rfl
    rw [hroot, hlay] at hint
    cases hint
  · intro t height ls es e h he hfit hne hfill
    exact h.filled_insert hfill he hne hfit

/-! ### The sizes of the levels -/

/-- The number of blocks at a height above the leaves. -/
def levelSize (t : BPlusTree β) (height : ℤ → ℕ) (d : ℕ) : ℕ :=
  (newIds 0 t.numOfNodes_).countP fun b => height b = d

/-- The blocks at the height `d + 1` with the property `q` have at least `m` children each, which
are counted at the height `d`. -/
theorem Owned.mul_countP_le (howned : t.Owned [t.rootBID_]) (h : t.Leveled height) {q : ℤ → Bool}
    {m : ℕ} (hq : ∀ b, 1 ≤ b → b ≤ t.numOfNodes_ → q b →
      height b = d + 1 ∧ m ≤ (t.readInternal b).separators.length + 1) :
    m * (newIds 0 t.numOfNodes_).countP q ≤ t.levelSize height d := by
  rw [levelSize, ← howned.countP_eq fun b => height b = d, List.countP_append]
  refine (mul_countP_le_countP_flatMap fun b hb hqb => ?_).trans (Nat.le_add_right _ _)
  obtain ⟨h1, h2⟩ := mem_newIds.mp hb
  obtain ⟨hd, hm⟩ := hq b h1 h2 hqb
  have hlay : t.binFile_.layout (t.blockOffset b) = some .internal := by
    rw [h.layout b h1 h2, hd]
    rfl
  -- all children are at the height `d`
  have hall : (t.kids b).countP (fun c => height c = d) = (t.kids b).length := by
    rw [List.countP_eq_length]
    intro c hc
    rw [kids_of_internal hlay] at hc
    simpa using (h.child b h1 h2 d hd c hc).2
  rw [hall, kids_of_internal hlay]
  simpa [InternalNode.children, Separators.children] using hm

/-- The level below the root has two blocks. -/
theorem Filled.two_le_levelSize (hfill : t.Filled) (howned : t.Owned [t.rootBID_])
    (h : t.Leveled height) (hd : t.depth_.toNat = d + 1) : 2 ≤ t.levelSize height d := by
  have hroot := h.root
  have hlay := h.layout _ hroot.1 hroot.2
  rw [h.height_root, hd] at hlay
  have hseps := hfill.root hlay
  have hle := howned.mul_countP_le (d := d) (m := 2) (q := fun b => b = t.rootBID_) h
    fun b _ _ hb => by
      obtain rfl : b = t.rootBID_ := by simpa using hb
      exact ⟨h.height_root.trans hd, by omega⟩
  have hpos : 0 < (newIds 0 t.numOfNodes_).countP fun b => decide (b = t.rootBID_) := by
    rw [List.countP_pos_iff]
    exact ⟨t.rootBID_, mem_newIds.mpr (by omega), by simp⟩
  omega

/-- **A level is larger than the one above it** by the least number of children. -/
theorem Filled.mul_levelSize_le (hfill : t.Filled) (howned : t.Owned [t.rootBID_])
    (h : t.Leveled height) (hd : d + 1 < t.depth_.toNat) {m : ℕ} (hm : (m : ℤ) = t.capacity_ / 2) :
    (m + 1) * t.levelSize height (d + 1) ≤ t.levelSize height d := by
  refine howned.mul_countP_le h fun b h1 h2 hb => ?_
  have hbd : height b = d + 1 := by simpa using hb
  refine ⟨hbd, ?_⟩
  -- the block is below the root, so it is half full
  have hne : b ≠ t.rootBID_ := by
    rintro rfl
    have := h.height_root
    omega
  have hhalf := (hfill.half b h1 h2 hne).internal (by rw [h.layout b h1 h2, hbd]; rfl)
  omega

/-- The sizes of the levels, from the one below the root downwards. -/
theorem Filled.pow_le_levelSize (hfill : t.Filled) (howned : t.Owned [t.rootBID_])
    (h : t.Leveled height) {m : ℕ} (hm : (m : ℤ) = t.capacity_ / 2) (k : ℕ) :
    ∀ d, t.depth_.toNat = d + k + 1 → 2 * (m + 1) ^ k ≤ t.levelSize height d := by
  induction k with
  | zero =>
    intro d hd
    rw [pow_zero, Nat.mul_one]
    exact hfill.two_le_levelSize howned h hd
  | succ k ih =>
    intro d hd
    have habove := ih (d + 1) (by omega)
    have hstep := hfill.mul_levelSize_le howned h (d := d) (by omega) hm
    calc 2 * (m + 1) ^ (k + 1) = (m + 1) * (2 * (m + 1) ^ k) := by ring
      _ ≤ (m + 1) * t.levelSize height (d + 1) := Nat.mul_le_mul_left _ habove
      _ ≤ t.levelSize height d := hstep

/-- The leaves hold what was inserted, each at least half a block of it. -/
theorem Linked.mul_levelSize_le (h : t.Linked height ls es) (hfill : t.Filled)
    (hd : 1 ≤ t.depth_.toNat) (hne : ∀ e ∈ es, e.key ≠ 0) {m : ℕ}
    (hm : (m : ℤ) = (t.capacity_ + 1) / 2) : t.levelSize height 0 * m ≤ es.length := by
  have hperm := h.entries.length_eq
  rw [live_eq_self hne] at hperm
  -- the leaves of the chain are the blocks at the height `0`
  have hleaves : t.levelSize height 0 ≤ ls.length := by
    rw [levelSize, List.countP_eq_length_filter]
    refine (List.subperm_of_subset ((nodup_newIds 0 _).filter _) fun b hb => ?_).length_le
    obtain ⟨hb, hb0⟩ := List.mem_filter.mp hb
    obtain ⟨h1, h2⟩ := mem_newIds.mp hb
    exact (h.mem_iff b).mpr ⟨⟨h1, h2⟩, by simpa using hb0⟩
  have hhalf := mul_countP_le_countP_flatMap (l := ls) (f := fun l => (t.readLeaf l).entries)
    (q := fun _ => true) (p := fun _ => true) (m := m) fun b hb _ => ?_
  · rw [List.countP_true, List.countP_true] at hhalf
    calc t.levelSize height 0 * m ≤ ls.length * m := Nat.mul_le_mul_right m hleaves
      _ = m * ls.length := Nat.mul_comm ..
      _ ≤ es.length := hperm ▸ hhalf
  · obtain ⟨⟨h1, h2⟩, hb0⟩ := (h.mem_iff b).mp hb
    have hroot : b ≠ t.rootBID_ := by
      rintro rfl
      have := h.leveled.height_root
      omega
    have hleaf := (hfill.half b h1 h2 hroot).leaf (by rw [h.leveled.layout b h1 h2, hb0]; rfl)
    rw [List.countP_true]
    omega

/-! ### The result -/

/-- The blocks of the tree below a block are at the heights they are listed with. -/
theorem Leveled.mem_treeBlocks (h : t.Leveled height) (hb : 1 ≤ b ∧ b ≤ t.numOfNodes_)
    (hd : height b = d) {d' : ℕ} {b' : ℤ} (hmem : (d', b') ∈ t.treeBlocks d b) :
    (1 ≤ b' ∧ b' ≤ t.numOfNodes_) ∧ height b' = d' := by
  induction d generalizing b with
  | zero =>
    obtain ⟨rfl, rfl⟩ : d' = 0 ∧ b' = b := by simpa [treeBlocks] using hmem
    exact ⟨hb, hd⟩
  | succ d ih =>
    rcases List.mem_cons.mp hmem with heq | hmem
    · obtain ⟨rfl, rfl⟩ := Prod.mk.inj heq
      exact ⟨hb, hd⟩
    · obtain ⟨c, hc, hmem⟩ := List.mem_flatMap.mp hmem
      obtain ⟨hc, hcd⟩ := h.child b hb.1 hb.2 d hd c hc
      exact ih hc hcd hmem

/-- **Minimum fill and height**, for every capacity and every session without the key `0`: once the
index has an internal node, every leaf and every internal node below the root is half full, the root
has a separator, and the number of insertions bounds the depth. -/
theorem minFill_insertAll {bs : ℤ} (hbs : IntCodec.InRange β bs)
    (hopen : getMetadata (createIndexFile bs) = .ok t) (hes : Entry.AllInRange β es)
    (hfit : IntCodec.InRange β (t.insertAll es).numOfNodes_) (hne : ∀ e ∈ es, e.key ≠ 0)
    (hdepth : 1 ≤ (t.insertAll es).depth_) :
    (∀ b, (0, b) ∈ (t.insertAll es).blocks →
      (t.capacity_ + 1) / 2 ≤ ((t.insertAll es).readLeaf b).entries.length) ∧
    (∀ d b, (d + 1, b) ∈ (t.insertAll es).blocks → b ≠ (t.insertAll es).rootBID_ →
      t.capacity_ / 2 ≤ ((t.insertAll es).readInternal b).separators.length) ∧
    1 ≤ ((t.insertAll es).readInternal (t.insertAll es).rootBID_).separators.length ∧
    2 * (t.capacity_ / 2 + 1) ^ ((t.insertAll es).depth_.toNat - 1) * ((t.capacity_ + 1) / 2) ≤
      es.length := by
  obtain ⟨g, -, -, hd0⟩ := fresh_createIndexFile hbs hopen
  by_cases hnil : es = []
  · subst hnil
    change 1 ≤ t.depth_ at hdepth
    omega
  have hblockSize := blockSize_insertAll t es
  obtain ⟨height, ls, h⟩ := linked_insertAll hbs hopen hes hfit hnil
  have howned := owned_insertAll hbs hopen hes hfit hnil hne
  have hfill := filled_insertAll hbs hopen hes hfit hnil hne
  generalize t.insertAll es = s at *
  have hcap : s.capacity_ = t.capacity_ := by
    rw [h.leveled.geometry.capacity_eq, g.capacity_eq, hblockSize]
  have hroot := h.leveled.root
  have hheight := h.leveled.height_root
  have hlay : ∀ d b, (d, b) ∈ s.blocks → (1 ≤ b ∧ b ≤ s.numOfNodes_) ∧ height b = d ∧
      s.binFile_.layout (s.blockOffset b) = some (layoutAt d) := by
    intro d b hb
    rw [blocks, if_neg (by omega)] at hb
    obtain ⟨hb, hbd⟩ := h.leveled.mem_treeBlocks hroot hheight hb
    exact ⟨hb, hbd, hbd ▸ h.leveled.layout b hb.1 hb.2⟩
  rw [← hcap]
  refine ⟨fun b hb => ?_, fun d b hb hne' => ?_, ?_, ?_⟩
  · obtain ⟨hb, hb0, hleaf⟩ := hlay 0 b hb
    refine (hfill.half b hb.1 hb.2 ?_).leaf hleaf
    rintro rfl
    omega
  · obtain ⟨hb, -, hint⟩ := hlay (d + 1) b hb
    exact (hfill.half b hb.1 hb.2 hne').internal hint
  · refine hfill.root ?_
    rw [h.leveled.layout _ hroot.1 hroot.2, hheight, layoutAt, if_neg (by omega)]
  · have hpos := g.capacity_pos
    obtain ⟨m, hm⟩ := Int.eq_ofNat_of_zero_le (show 0 ≤ s.capacity_ / 2 by omega)
    obtain ⟨l, hl⟩ := Int.eq_ofNat_of_zero_le (show 0 ≤ (s.capacity_ + 1) / 2 by omega)
    have hlevels := hfill.pow_le_levelSize howned h.leveled hm.symm (s.depth_.toNat - 1) 0
      (by omega)
    have hleaves := h.mul_levelSize_le hfill (by omega) hne hl.symm
    have hn : 2 * (m + 1) ^ (s.depth_.toNat - 1) * l ≤ es.length :=
      (Nat.mul_le_mul_right l hlevels).trans hleaves
    rw [hm, hl]
    exact_mod_cast hn

/-- Two entries per node, with a repeated key: the third insertion has split the root leaf. -/
theorem minFill_insertAll_repeated :
    1 ≤ ((insertAll ⟨20, 0, 0, 2, 0, (createIndexFile 20 : BinFile UInt8)⟩
        [⟨3, 30⟩, ⟨3, 10⟩, ⟨1, 20⟩]).readInternal
      (insertAll ⟨20, 0, 0, 2, 0, (createIndexFile 20 : BinFile UInt8)⟩
        [⟨3, 30⟩, ⟨3, 10⟩, ⟨1, 20⟩]).rootBID_).separators.length ∧
    2 * ((2 : ℤ) / 2 + 1) ^
        ((insertAll ⟨20, 0, 0, 2, 0, (createIndexFile 20 : BinFile UInt8)⟩
          [⟨3, 30⟩, ⟨3, 10⟩, ⟨1, 20⟩]).depth_.toNat - 1) * ((2 + 1) / 2) ≤
      ([⟨3, 30⟩, ⟨3, 10⟩, ⟨1, 20⟩] : List Entry).length :=
  (minFill_insertAll (by decide) (show getMetadata (createIndexFile 20) = .ok _ from rfl)
    (by decide) (by decide) (by decide) (by decide)).2.2

end BPlusTree

end Laboratory.IndexFile
