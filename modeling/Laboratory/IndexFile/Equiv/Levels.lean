import Laboratory.IndexFile.Equiv.Insert

/-!
# The levels of the blocks

Nothing in the file tells a leaf from an internal node: a block is read as a leaf when the path to
it has `depth_` steps.  `Leveled` gives every block a height above the leaves that its layout and
its children agree with.  It holds whatever keys are inserted, since a step of an insertion writes a
block at the height that the block has, or a new block (`Leveled.insertLeaf`,
`Leveled.propagateNode`, `Leveled.growRoot`), and `layouts_insertAll` follows from it.
-/

namespace Laboratory.IndexFile

namespace BPlusTree

variable {β : Type} [IntCodec β] {t t' : BPlusTree β} {height height' : ℤ → ℕ} {d : ℕ} {b k : ℤ}

/-! ### Heights -/

/-- Every way from the block `b` down to a leaf has `d` steps, and the blocks on it are laid out
for their place. -/
def AtHeight (t : BPlusTree β) : ℕ → ℤ → Prop
  | 0, b => t.binFile_.layout (t.blockOffset b) = some .leaf
  | d + 1, b =>
    t.binFile_.layout (t.blockOffset b) = some .internal ∧
      ∀ c ∈ (t.readInternal b).children, (1 ≤ c ∧ c ≤ t.numOfNodes_) ∧ t.AtHeight d c

/-- The layout of a block at a height. -/
def layoutAt (d : ℕ) : Layout := if d = 0 then .leaf else .internal

/-- **The invariant of the levels**: `height` is the height of every block above the leaves. -/
structure Leveled (t : BPlusTree β) (height : ℤ → ℕ) : Prop where
  geometry : t.Geometry
  depth_nonneg : 0 ≤ t.depth_
  root : 1 ≤ t.rootBID_ ∧ t.rootBID_ ≤ t.numOfNodes_
  height_root : height t.rootBID_ = t.depth_.toNat
  layout : ∀ b, 1 ≤ b → b ≤ t.numOfNodes_ →
    t.binFile_.layout (t.blockOffset b) = some (layoutAt (height b))
  child : ∀ b, 1 ≤ b → b ≤ t.numOfNodes_ → ∀ d, height b = d + 1 →
    ∀ c ∈ (t.readInternal b).children, (1 ≤ c ∧ c ≤ t.numOfNodes_) ∧ height c = d

theorem Leveled.atHeight_iff (h : t.Leveled height) (hb : 1 ≤ b ∧ b ≤ t.numOfNodes_) :
    t.AtHeight d b ↔ height b = d := by
  induction d generalizing b with
  | zero =>
    have hlay := h.layout b hb.1 hb.2
    rw [AtHeight, hlay, layoutAt]
    split_ifs with h0 <;> simp [h0]
  | succ d ih =>
    have hlay := h.layout b hb.1 hb.2
    constructor
    · rintro ⟨hint, hkids⟩
      have h0 : height b ≠ 0 := by
        intro h0
        rw [hint, h0] at hlay
        cases hlay
      obtain ⟨d', hd'⟩ := Nat.exists_eq_succ_of_ne_zero h0
      -- an internal node has a child, which has the height
      have hmem := descend_mem 0 (t.readInternal b)
      obtain ⟨hc, hd⟩ := h.child b hb.1 hb.2 d' hd' _ hmem
      have hkid := (ih hc).mp (hkids _ hmem).2
      omega
    · intro hd
      refine ⟨?_, fun c hc => ?_⟩
      · rw [hlay, layoutAt, if_neg (by omega)]
      · obtain ⟨hc, hcd⟩ := h.child b hb.1 hb.2 d hd c hc
        exact ⟨hc, (ih hc).mpr hcd⟩

/-! ### Paths -/

/-- **The heights along a path** go down to `0`, one by one. -/
theorem Leveled.path (h : t.Leveled height) (hb : 1 ≤ b ∧ b ≤ t.numOfNodes_) (hd : height b = d) :
    (t.getPathFrom k d b).nodes.map height = (List.range (d + 1)).reverse ∧
      ∀ j ∈ (t.getPathFrom k d b).nodes, 1 ≤ j ∧ j ≤ t.numOfNodes_ := by
  induction d generalizing b with
  | zero =>
    refine ⟨?_, fun j hj => ?_⟩
    · simp [getPathFrom, hd]
    · rw [List.mem_singleton.mp hj]
      exact hb
  | succ d ih =>
    obtain ⟨hc, hcd⟩ := h.child b hb.1 hb.2 d hd _ (descend_mem k (t.readInternal b))
    obtain ⟨hheights, hids⟩ := ih hc hcd
    refine ⟨?_, fun j hj => ?_⟩
    · rw [getPathFrom, List.map_cons, hheights, hd, List.range_succ (n := d + 1),
        List.reverse_append]
      rfl
    · rcases List.mem_cons.mp hj with rfl | hj
      · exact hb
      · exact hids j hj

theorem Leveled.dest (h : t.Leveled height) (hb : 1 ≤ b ∧ b ≤ t.numOfNodes_) (hd : height b = d) :
    (1 ≤ (t.getPathFrom k d b).dest ∧ (t.getPathFrom k d b).dest ≤ t.numOfNodes_) ∧
      height (t.getPathFrom k d b).dest = 0 := by
  induction d generalizing b with
  | zero => exact ⟨hb, hd⟩
  | succ d ih =>
    obtain ⟨hc, hcd⟩ := h.child b hb.1 hb.2 d hd _ (descend_mem k (t.readInternal b))
    exact ih hc hcd

theorem Leveled.height_le_of_mem_path (h : t.Leveled height) (hb : 1 ≤ b ∧ b ≤ t.numOfNodes_)
    (hd : height b = d) {j : ℤ} (hj : j ∈ (t.getPathFrom k d b).nodes) : height j ≤ d := by
  have hmem := List.mem_map_of_mem (f := height) hj
  rw [(h.path hb hd).1, List.mem_reverse, List.mem_range] at hmem
  omega

/-- The blocks of the tree below a block are not higher than it. -/
theorem Leveled.treeIds (h : t.Leveled height) (hb : 1 ≤ b ∧ b ≤ t.numOfNodes_) (hd : height b = d)
    {j : ℤ} (hj : j ∈ t.treeIds d b) : height j ≤ d := by
  induction d generalizing b with
  | zero =>
    rw [List.mem_singleton.mp hj, hd]
  | succ d ih =>
    rcases List.mem_cons.mp hj with rfl | hj
    · exact hd.le
    · obtain ⟨c, hc, hj⟩ := List.mem_flatMap.mp hj
      obtain ⟨hc, hcd⟩ := h.child b hb.1 hb.2 d hd c hc
      exact (ih hc hcd hj).trans (Nat.le_succ d)

/-! ### The steps of an insertion -/

/-- What a step that writes the blocks `bs` at the height `d` leaves: the other blocks are as they
were, and a promoted block is the last one allocated. -/
structure Stepped (t : BPlusTree β) (height : ℤ → ℕ) (d : ℕ) (bs : List ℤ)
    (r : BPlusTree β × Entry) (height' : ℤ → ℕ) : Prop where
  leveled : r.1.Leveled height'
  numOfNodes_le : t.numOfNodes_ ≤ r.1.numOfNodes_
  rootBID_eq : r.1.rootBID_ = t.rootBID_
  depth_eq : r.1.depth_ = t.depth_
  keeps : ∀ j ≤ t.numOfNodes_, height' j = height j
  frame : ∀ j ≤ t.numOfNodes_, j ∉ bs → SameBlock t r.1 j
  promoted : r.2 = NO_SPLIT ∨
    t.numOfNodes_ < r.2.value ∧ r.2.value = r.1.numOfNodes_ ∧ height' r.2.value = d

/-- The heights stay right when the blocks `bs` are rewritten for their heights. -/
theorem Leveled.rewritten {bs : List ℤ} (h : t.Leveled height) (hw : Rewritten t t' bs)
    (hnew : ∀ j, t.numOfNodes_ < j → j ≤ t'.numOfNodes_ → j ∈ bs)
    (hkeeps : ∀ j ≤ t.numOfNodes_, height' j = height j)
    (hlayout : ∀ b ∈ bs, t'.binFile_.layout (t'.blockOffset b) = some (layoutAt (height' b)))
    (hchild : ∀ b ∈ bs, ∀ d, height' b = d + 1 → ∀ c ∈ (t'.readInternal b).children,
      (1 ≤ c ∧ c ≤ t'.numOfNodes_) ∧ height' c = d) : t'.Leveled height' := by
  have hle := hw.numOfNodes_le
  have hold : ∀ b, b ≤ t'.numOfNodes_ → b ∉ bs → b ≤ t.numOfNodes_ := by
    intro b hb hbs
    by_contra hlt
    exact hbs (hnew b (not_le.mp hlt) hb)
  refine ⟨⟨by rw [hw.capacity_eq, hw.blockSize_eq]; exact h.geometry.1,
    by rw [hw.capacity_eq]; exact h.geometry.2⟩, by rw [hw.depth_eq]; exact h.depth_nonneg, ?_, ?_,
    fun b h1 h2 => ?_, fun b h1 h2 d hd c hc => ?_⟩
  · rw [hw.rootBID_eq]
    exact ⟨h.root.1, h.root.2.trans hle⟩
  · rw [hw.rootBID_eq, hw.depth_eq, hkeeps _ h.root.2, h.height_root]
  · by_cases hbs : b ∈ bs
    · exact hlayout b hbs
    · have hb := hold b h2 hbs
      rw [(hw.frame b hb hbs).layout, hkeeps b hb]
      exact h.layout b h1 hb
  · by_cases hbs : b ∈ bs
    · exact hchild b hbs d hd c hc
    · have hb := hold b h2 hbs
      rw [hkeeps b hb] at hd
      rw [(hw.frame b hb hbs).internal] at hc
      obtain ⟨hc, hcd⟩ := h.child b h1 hb d hd c hc
      rw [hkeeps c hc.2]
      exact ⟨⟨hc.1, hc.2.trans hle⟩, hcd⟩

/-- A new block gets a height. -/
theorem update_height {n : ℤ} (height : ℤ → ℕ) (d : ℕ) :
    ∀ j ≤ n, Function.update height (n + 1) d j = height j := by
  intro j hj
  rw [Function.update_of_ne (by omega)]

/-- **A leaf is written as a leaf**, and so is the leaf that is split off. -/
theorem Leveled.insertLeaf (h : t.Leveled height) (hb : 1 ≤ b ∧ b ≤ t.numOfNodes_)
    (hd : height b = 0) {next : ℤ} {es : List Entry} {r : BPlusTree β × Entry}
    (hr : LeafWritten t b next es r) : ∃ height', Stepped t height 0 [b] r height' ∧
      ∀ j, t.numOfNodes_ < j → j ≤ r.1.numOfNodes_ → height' j = 0 := by
  cases hr with
  | @kept t' _ hw hnum _ hlay =>
    refine ⟨height, ⟨h.rewritten hw (fun j h1 h2 => absurd (h2.trans hnum.le) (not_le.mpr h1))
      (fun _ _ => rfl) ?_ ?_,
      hw.numOfNodes_le, hw.rootBID_eq, hw.depth_eq, fun _ _ => rfl, hw.frame, .inl rfl⟩,
      fun j h1 h2 => absurd (h2.trans hnum.le) (not_le.mpr h1)⟩
    · intro j hj
      rw [List.mem_singleton.mp hj, hlay, hd]
      rfl
    · intro j hj d hjd
      rw [List.mem_singleton.mp hj, hd] at hjd
      cases hjd
  | @split t' l r x _ _ _ hw hnum _ _ hlay =>
    -- the leaf that is split off has the next block number
    have hkeeps := update_height (n := t.numOfNodes_) height 0
    have hzero : ∀ j ∈ [b, t.numOfNodes_ + 1],
        Function.update height (t.numOfNodes_ + 1) 0 j = 0 := by
      intro j hj
      rcases List.mem_cons.mp hj with rfl | hj
      · rw [hkeeps j hb.2, hd]
      · rw [List.mem_singleton.mp hj, Function.update_self]
    refine ⟨_, ⟨h.rewritten hw ?_ hkeeps ?_ ?_, hw.numOfNodes_le, hw.rootBID_eq, hw.depth_eq,
      hkeeps, ?_, .inr ⟨Int.lt_add_one_iff.mpr le_rfl, hnum.symm, hzero _ (by simp)⟩⟩, ?_⟩
    · intro j h1 h2
      replace h2 : j ≤ t.numOfNodes_ + 1 := hnum ▸ h2
      rw [List.mem_cons, List.mem_singleton]
      omega
    · intro j hj
      rw [hlay j hj, hzero j hj]
      rfl
    · intro j hj d hjd
      rw [hzero j hj] at hjd
      cases hjd
    · intro j h1 h2
      refine hw.frame j h1 ?_
      rw [List.mem_cons, List.mem_singleton, not_or]
      exact ⟨by simpa using h2, by omega⟩
    · intro j h1 h2
      replace h2 : j ≤ t.numOfNodes_ + 1 := hnum ▸ h2
      obtain rfl : j = t.numOfNodes_ + 1 := by omega
      rw [Function.update_self]

/-- The children of a node that has taken in a separator are the old ones and the new one. -/
theorem value_mem_of_mem_sortEntries {ss : List Entry} {p s : Entry}
    (hs : s ∈ sortEntries (ss ++ [p])) : s ∈ ss ∨ s = p := by
  rcases List.mem_append.mp ((sortEntries_perm _).mem_iff.mp hs) with hs | hs
  · exact .inl hs
  · exact .inr (List.mem_singleton.mp hs)

theorem mem_children {c : ℤ} {node : InternalNode} (hc : c ∈ node.children) :
    c = node.firstChild ∨ ∃ s ∈ node.separators, s.value = c := by
  rcases List.mem_cons.mp hc with hc | hc
  · exact .inl hc
  · exact .inr (List.mem_map.mp hc)

/-- **An internal node is written as an internal node**, and so is the node that is split off. -/
theorem Leveled.propagateNode (h : t.Leveled height) (hb : 1 ≤ b ∧ b ≤ t.numOfNodes_)
    (hd : height b = d + 1) {p : Entry} (hp : 1 ≤ p.value ∧ p.value ≤ t.numOfNodes_)
    (hpd : height p.value = d) {r : BPlusTree β × Entry}
    (hr : NodeWritten t b (t.readInternal b).firstChild
      (sortEntries ((t.readInternal b).separators ++ [p])) r) :
    ∃ height', Stepped t height (d + 1) [b] r height' ∧
      ∀ j, t.numOfNodes_ < j → j ≤ r.1.numOfNodes_ → height' j = d + 1 := by
  -- all children are at the height below
  have hfirst : (1 ≤ (t.readInternal b).firstChild ∧
      (t.readInternal b).firstChild ≤ t.numOfNodes_) ∧ height (t.readInternal b).firstChild = d :=
    h.child b hb.1 hb.2 d hd _ (List.mem_cons_self ..)
  have hvalue : ∀ s ∈ sortEntries ((t.readInternal b).separators ++ [p]),
      (1 ≤ s.value ∧ s.value ≤ t.numOfNodes_) ∧ height s.value = d := by
    intro s hs
    rcases value_mem_of_mem_sortEntries hs with hs | rfl
    · exact h.child b hb.1 hb.2 d hd _ (List.mem_cons_of_mem _ (List.mem_map_of_mem hs))
    · exact ⟨hp, hpd⟩
  cases hr with
  | @kept t' hw hnum hread _ hlay =>
    refine ⟨height, ⟨h.rewritten hw (fun j h1 h2 => absurd (h2.trans hnum.le) (not_le.mpr h1))
      (fun _ _ => rfl) ?_ ?_,
      hw.numOfNodes_le, hw.rootBID_eq, hw.depth_eq, fun _ _ => rfl, hw.frame, .inl rfl⟩,
      fun j h1 h2 => absurd (h2.trans hnum.le) (not_le.mpr h1)⟩
    · intro j hj
      rw [List.mem_singleton.mp hj, hlay, hd]
      rfl
    · intro j hj d' hjd c hc
      rw [List.mem_singleton.mp hj] at hjd hc
      obtain rfl : d' = d := by omega
      rw [hread] at hc
      rw [hnum]
      rcases mem_children hc with rfl | ⟨s, hs, rfl⟩
      · exact hfirst
      · exact hvalue s (mem_of_mem_visible hs)
  | @split t' l r m happ _ _ hw hnum hleft hright _ _ hlay =>
    -- the node that is split off has the next block number
    have hkeeps := update_height (n := t.numOfNodes_) height (d + 1)
    have hheight : ∀ j ∈ [b, t.numOfNodes_ + 1],
        Function.update height (t.numOfNodes_ + 1) (d + 1) j = d + 1 := by
      intro j hj
      rcases List.mem_cons.mp hj with rfl | hj
      · rw [hkeeps j hb.2, hd]
      · rw [List.mem_singleton.mp hj, Function.update_self]
    have hkid : ∀ c, (1 ≤ c ∧ c ≤ t.numOfNodes_) ∧ height c = d → (1 ≤ c ∧ c ≤ t'.numOfNodes_) ∧
        Function.update height (t.numOfNodes_ + 1) (d + 1) c = d := by
      rintro c ⟨hc, hcd⟩
      rw [hkeeps c hc.2, hnum]
      exact ⟨⟨hc.1, by omega⟩, hcd⟩
    refine ⟨_, ⟨h.rewritten hw ?_ hkeeps ?_ ?_, hw.numOfNodes_le, hw.rootBID_eq, hw.depth_eq,
      hkeeps, ?_, .inr ⟨Int.lt_add_one_iff.mpr le_rfl, hnum.symm, hheight _ (by simp)⟩⟩, ?_⟩
    · intro j h1 h2
      replace h2 : j ≤ t.numOfNodes_ + 1 := hnum ▸ h2
      rw [List.mem_cons, List.mem_singleton]
      omega
    · intro j hj
      rw [hlay j hj, hheight j hj]
      rfl
    · intro j hj d' hjd c hc
      rw [hheight j hj] at hjd
      obtain rfl : d' = d := by omega
      rw [happ] at hvalue
      apply hkid
      rcases List.mem_cons.mp hj with rfl | hj
      · rw [hleft] at hc
        rcases mem_children hc with rfl | ⟨s, hs, rfl⟩
        · exact hfirst
        · exact hvalue s (List.mem_append_left _ (mem_of_mem_visible hs))
      · rw [List.mem_singleton.mp hj, hright] at hc
        rcases mem_children hc with rfl | ⟨s, hs, rfl⟩
        · -- the child of the separator that moves up is the first of the right half
          exact hvalue m (by simp)
        · exact hvalue s (List.mem_append_right _
            (List.mem_cons_of_mem _ (mem_of_mem_visible hs)))
    · intro j h1 h2
      refine hw.frame j h1 ?_
      rw [List.mem_cons, List.mem_singleton, not_or]
      exact ⟨by simpa using h2, by omega⟩
    · intro j h1 h2
      replace h2 : j ≤ t.numOfNodes_ + 1 := hnum ▸ h2
      obtain rfl : j = t.numOfNodes_ + 1 := by omega
      rw [Function.update_self]

/-! ### An insertion -/

/-- What the insertion of `e` below the block `b` leaves: it has written blocks on the path of the
key, and no leaf after the one of the entry. -/
structure Grown (t : BPlusTree β) (height : ℤ → ℕ) (d : ℕ) (b : ℤ) (e : Entry)
    (r : BPlusTree β × Entry) (height' : ℤ → ℕ) : Prop where
  stepped : Stepped t height d (t.getPathFrom e.key d b).nodes r height'
  insertLeaf_le : (t.insertLeaf e (t.getPathFrom e.key d b).dest).1.numOfNodes_ ≤ r.1.numOfNodes_
  leaf : ∀ j, 1 ≤ j → j ≤ r.1.numOfNodes_ → height' j = 0 →
    j ≤ (t.insertLeaf e (t.getPathFrom e.key d b).dest).1.numOfNodes_ ∧
      SameBlock (t.insertLeaf e (t.getPathFrom e.key d b).dest).1 r.1 j
  new_leaf : ∀ j, t.numOfNodes_ < j →
    j ≤ (t.insertLeaf e (t.getPathFrom e.key d b).dest).1.numOfNodes_ → height' j = 0

theorem Stepped.noSplit {bs : List ℤ} {r : BPlusTree β × Entry}
    (h : Stepped t height d bs r height') (hn : 0 ≤ t.numOfNodes_) :
    isNoSplit r.2 ↔ r.2 = NO_SPLIT := by
  constructor
  · intro hno
    rcases h.promoted with hp | ⟨hp, -⟩
    · exact hp
    · have hfalse : isNoSplit r.2 = false :=
        isNoSplit_of_pos (k := r.2.key) (show 0 < r.2.value by omega)
      rw [hfalse] at hno
      cases hno
  · rintro hp
    rw [hp, isNoSplit_NO_SPLIT]

/-- **An insertion below a block keeps the heights**, by induction on the depth. -/
theorem Leveled.insertBelow (h : t.Leveled height) {e : Entry}
    (he : IntCodec.InRange β e.key ∧ IntCodec.InRange β e.value)
    (hb : 1 ≤ b ∧ b ≤ t.numOfNodes_) (hd : height b = d)
    (hfit : IntCodec.InRange β (t.insertBelow e d b).1.numOfNodes_) :
    ∃ height', Grown t height d b e (t.insertBelow e d b) height' := by
  induction d generalizing b with
  | zero =>
    have hwritten := insertLeaf_written h.geometry hb.2 he hfit
    obtain ⟨height', hstep, hnew⟩ := h.insertLeaf hb hd hwritten
    exact ⟨height', hstep, le_rfl, fun j _ hj _ => ⟨hj, .refl _ j⟩, hnew⟩
  | succ d ih =>
    obtain ⟨hc, hcd⟩ := h.child b hb.1 hb.2 d hd _ (descend_mem e.key (t.readInternal b))
    have hn : 0 ≤ t.numOfNodes_ := by omega
    have hbelow := inRange_insertBelow hn hfit
    obtain ⟨height₁, hgrown⟩ := ih hc hcd hbelow
    have hstep := hgrown.stepped
    have hkey := inRange_key_insertBelow t he.1 d
      (descend e.key (t.readInternal b).firstChild (t.readInternal b).separators)
    rw [insertBelow]
    generalize t.insertBelow e d
      (descend e.key (t.readInternal b).firstChild (t.readInternal b).separators) = r₁ at *
    by_cases hno : isNoSplit r₁.2
    · rw [if_pos hno]
      refine ⟨height₁, ⟨hstep.leveled, hstep.numOfNodes_le, hstep.rootBID_eq, hstep.depth_eq,
        hstep.keeps, fun j hj hjb => ?_, .inl ((hstep.noSplit hn).mp hno)⟩,
        hgrown.insertLeaf_le, hgrown.leaf, hgrown.new_leaf⟩
      exact hstep.frame j hj fun hmem => hjb (List.mem_cons_of_mem _ hmem)
    · rw [if_neg hno]
      -- the node takes in the separator of the block that was split off below it
      have hne : r₁.2 ≠ NO_SPLIT := fun hp => hno ((hstep.noSplit hn).mpr hp)
      obtain ⟨hlt, hval, hpd⟩ := hstep.promoted.resolve_left hne
      have hle := hstep.numOfNodes_le
      have hb₁ : height₁ b = d + 1 := by rw [hstep.keeps b hb.2, hd]
      have hwritten := propagateNode_written hstep.leveled.geometry (e := r₁.2) (hb.2.trans hle) rfl
        ⟨hkey.resolve_left hne, by rwa [hval]⟩
      obtain ⟨height₂, hnode, hnew⟩ := hstep.leveled.propagateNode ⟨hb.1, hb.2.trans hle⟩ hb₁
        (by omega) hpd hwritten
      have hle₂ := hnode.numOfNodes_le
      refine ⟨height₂, ⟨hnode.leveled, hle.trans hle₂, hnode.rootBID_eq.trans hstep.rootBID_eq,
        hnode.depth_eq.trans hstep.depth_eq, fun j hj => ?_, fun j hj hjb => ?_, ?_⟩,
        hgrown.insertLeaf_le.trans hle₂, fun j h1 h2 h0 => ?_, fun j h1 h2 => ?_⟩
      · rw [hnode.keeps j (hj.trans hle), hstep.keeps j hj]
      · rw [getPathFrom, List.mem_cons, not_or] at hjb
        exact (hstep.frame j hj hjb.2).trans
          (hnode.frame j (hj.trans hle) (by simpa using hjb.1))
      · refine hnode.promoted.imp_right fun hp => ⟨hle.trans_lt hp.1, hp.2⟩
      · -- a new node is no leaf, and the node that was written is none
        have hj₁ : j ≤ r₁.1.numOfNodes_ := by
          by_contra hlt
          have := hnew j (not_le.mp hlt) h2
          omega
        have hj₀ : height₁ j = 0 := by rw [← hnode.keeps j hj₁, h0]
        obtain ⟨hjl, hsame⟩ := hgrown.leaf j h1 hj₁ hj₀
        refine ⟨hjl, hsame.trans (hnode.frame j hj₁ ?_)⟩
        rw [List.mem_singleton]
        rintro rfl
        omega
      · rw [hnode.keeps j (h2.trans hgrown.insertLeaf_le), hgrown.new_leaf j h1 h2]

/-- An insertion below the child `c` of the node `b`, which it has not written. -/
structure GrownBelow (t : BPlusTree β) (height : ℤ → ℕ) (d : ℕ) (b c : ℤ) (e : Entry)
    (r : BPlusTree β × Entry) (height' : ℤ → ℕ) : Prop where
  node : 1 ≤ b ∧ b ≤ t.numOfNodes_
  height_node : height b = d + 1
  child : 1 ≤ c ∧ c ≤ t.numOfNodes_
  height_child : height c = d
  eq : r = t.insertBelow e d c
  grown : Grown t height d c e r height'
  same : SameBlock t r.1 b
  inRange : IntCodec.InRange β r.1.numOfNodes_

/-- **The rule for `insertBelow`**: what holds after a leaf was written, and is kept by a node whose
child was not split and by a node that takes in the separator of its child, holds after an insertion
below any block. -/
theorem Leveled.insertBelow_rec (h : t.Leveled height) {e : Entry}
    (he : IntCodec.InRange β e.key ∧ IntCodec.InRange β e.value)
    {motive : ℕ → ℤ → BPlusTree β × Entry → Prop}
    (leaf : ∀ b r, (1 ≤ b ∧ b ≤ t.numOfNodes_) → height b = 0 →
      LeafWritten t b (t.readLeaf b).next (sortEntries ((t.readLeaf b).entries ++ [e])) r →
        motive 0 b r)
    (kept : ∀ d b c r height', GrownBelow t height d b c e r height' → r.2 = NO_SPLIT →
      motive d c r → motive (d + 1) b r)
    (promoted : ∀ d b c r height' r', GrownBelow t height d b c e r height' → r.2 ≠ NO_SPLIT →
      NodeWritten r.1 b (r.1.readInternal b).firstChild
        (sortEntries ((r.1.readInternal b).separators ++ [r.2])) r' →
      motive d c r → motive (d + 1) b r')
    (hb : 1 ≤ b ∧ b ≤ t.numOfNodes_) (hd : height b = d)
    (hfit : IntCodec.InRange β (t.insertBelow e d b).1.numOfNodes_) :
    motive d b (t.insertBelow e d b) := by
  induction d generalizing b with
  | zero => exact leaf b _ hb hd (insertLeaf_written h.geometry hb.2 he hfit)
  | succ d ih =>
    obtain ⟨hc, hcd⟩ := h.child b hb.1 hb.2 d hd _ (descend_mem e.key (t.readInternal b))
    have hn : 0 ≤ t.numOfNodes_ := by omega
    have hinner := inRange_insertBelow hn hfit
    have hbelow := ih hc hcd hinner
    obtain ⟨height', hgrown⟩ := h.insertBelow he hc hcd hinner
    have hstep := hgrown.stepped
    -- the blocks on the path below are lower than the node
    have hsame := hstep.frame b hb.2 fun hmem => by
      have hle := h.height_le_of_mem_path hc hcd hmem
      omega
    have hnode : GrownBelow t height d b _ e _ height' :=
      ⟨hb, hd, hc, hcd, rfl, hgrown, hsame, hinner⟩
    have hkey := inRange_key_insertBelow t he.1 d
      (descend e.key (t.readInternal b).firstChild (t.readInternal b).separators)
    rw [BPlusTree.insertBelow]
    generalize hr : t.insertBelow e d
      (descend e.key (t.readInternal b).firstChild (t.readInternal b).separators) = r at *
    by_cases hno : isNoSplit r.2
    · rw [if_pos hno]
      exact kept d b _ r height' hnode ((hstep.noSplit hn).mp hno) hbelow
    · rw [if_neg hno]
      have hne : r.2 ≠ NO_SPLIT := fun hp => hno ((hstep.noSplit hn).mpr hp)
      obtain ⟨-, hval, -⟩ := hstep.promoted.resolve_left hne
      refine promoted d b _ r height' _ hnode hne ?_ hbelow
      exact propagateNode_written hstep.leveled.geometry (hb.2.trans hstep.numOfNodes_le) rfl
        ⟨hkey.resolve_left hne, by rwa [hval]⟩

/-- What is written above a root that was split. -/
theorem Stepped.growRoot_written {bs : List ℤ} {r : BPlusTree β × Entry} (h : t.Leveled height)
    (hr : Stepped t height t.depth_.toNat bs r height')
    (hkey : r.2 = NO_SPLIT ∨ IntCodec.InRange β r.2.key)
    (hfit : IntCodec.InRange β (r.1.growRoot r.2).numOfNodes_) (hne : r.2 ≠ NO_SPLIT) :
    (r.1.growRoot r.2).capacity_ = r.1.capacity_ ∧
      (r.1.growRoot r.2).rootBID_ = r.1.numOfNodes_ + 1 ∧
      (r.1.growRoot r.2).depth_ = r.1.depth_ + 1 ∧
      (r.1.growRoot r.2).numOfNodes_ = r.1.numOfNodes_ + 1 ∧
      (r.1.growRoot r.2).readInternal (r.1.numOfNodes_ + 1) = ⟨r.1.rootBID_, visible [r.2]⟩ ∧
      (r.1.growRoot r.2).binFile_.layout
        ((r.1.growRoot r.2).blockOffset (r.1.numOfNodes_ + 1)) = some .internal ∧
      ∀ j, j ≤ r.1.numOfNodes_ → SameBlock r.1 (r.1.growRoot r.2) j := by
  have hroot := h.root
  have hrootBID := hr.rootBID_eq
  obtain ⟨hlt, hval, -⟩ := hr.promoted.resolve_left hne
  exact BPlusTree.growRoot_written hr.leveled.geometry (k := r.2.key) (v := r.2.value) (by omega)
    (by omega) hval.le (hkey.resolve_left hne) hfit

/-- **A new root** is one level above the old one. -/
theorem Stepped.growRoot {bs : List ℤ} {r : BPlusTree β × Entry} (h : t.Leveled height)
    (hr : Stepped t height t.depth_.toNat bs r height')
    (hkey : r.2 = NO_SPLIT ∨ IntCodec.InRange β r.2.key)
    (hfit : IntCodec.InRange β (r.1.growRoot r.2).numOfNodes_) :
    ∃ height'', (r.1.growRoot r.2).Leveled height'' ∧
      (r.2 = NO_SPLIT ∧ r.1.growRoot r.2 = r.1 ∨
          (r.1.growRoot r.2).depth_ = t.depth_ + 1 ∧
            (r.1.growRoot r.2).numOfNodes_ = r.1.numOfNodes_ + 1) ∧
        (∀ j ≤ r.1.numOfNodes_, height'' j = height' j ∧ SameBlock r.1 (r.1.growRoot r.2) j) ∧
          ∀ j, r.1.numOfNodes_ < j → j ≤ (r.1.growRoot r.2).numOfNodes_ → height'' j ≠ 0 := by
  have hone := h.root
  rcases hr.promoted with hno | ⟨hlt, hval, hpd⟩
  · -- without a split there is no new root
    rw [hno, BPlusTree.growRoot, if_pos isNoSplit_NO_SPLIT]
    exact ⟨height', hr.leveled, .inl ⟨rfl, rfl⟩, fun j _ => ⟨rfl, .refl _ j⟩,
      fun j h1 h2 => absurd h2 (not_le.mpr h1)⟩
  · have hwritten := hr.growRoot_written h hkey hfit fun hno => by
      rw [hno] at hlt
      simp only [NO_SPLIT] at hlt
      omega
    obtain ⟨w, k, v⟩ := r
    dsimp only at hlt hval hpd hwritten ⊢
    obtain ⟨hcap, hrootBID, hdepth', hnum, hread, hlay, hsame⟩ := hwritten
    have hle := hr.numOfNodes_le
    have hlev : w.Leveled height' := hr.leveled
    have hroot := hlev.root
    have hdepth := hlev.depth_nonneg
    have hdepth₀ : w.depth_ = t.depth_ := hr.depth_eq
    have hgeo := geometry_growRoot hlev.geometry ⟨k, v⟩
    generalize w.growRoot ⟨k, v⟩ = w' at *
    have hkeeps := update_height (n := w.numOfNodes_) height' (w.depth_.toNat + 1)
    have htop : Function.update height' (w.numOfNodes_ + 1) (w.depth_.toNat + 1)
        (w.numOfNodes_ + 1) = w.depth_.toNat + 1 := Function.update_self ..
    refine ⟨Function.update height' (w.numOfNodes_ + 1) (w.depth_.toNat + 1),
      ⟨hgeo, by omega, by omega, ?_, fun b h1 h2 => ?_, fun b h1 h2 d hd c hc => ?_⟩,
      .inr ⟨by omega, hnum⟩,
      fun j hj => ⟨hkeeps j hj, hsame j hj⟩, fun j h1 h2 => ?_⟩
    · rw [hrootBID, htop, hdepth']
      omega
    · rcases eq_or_ne b (w.numOfNodes_ + 1) with rfl | hb
      · rw [hlay, htop]
        rfl
      · have hb' : b ≤ w.numOfNodes_ := by omega
        rw [(hsame b hb').layout, hkeeps b hb']
        exact hlev.layout b h1 hb'
    · rcases eq_or_ne b (w.numOfNodes_ + 1) with rfl | hb
      · -- the children of the new root are the two halves of the old one
        rw [htop] at hd
        have hc' : c = w.rootBID_ ∨ c = v := by
          rw [hread] at hc
          rcases mem_children hc with hc | ⟨s, hs, hc⟩
          · exact .inl hc
          · have hs : s ∈ [(⟨k, v⟩ : Entry)] := mem_of_mem_visible hs
            rw [List.mem_singleton.mp hs] at hc
            exact .inr hc.symm
        rcases hc' with rfl | rfl
        · rw [hkeeps _ hroot.2, hlev.height_root]
          omega
        · rw [hkeeps _ hval.le, hpd, ← hdepth₀]
          omega
      · have hb' : b ≤ w.numOfNodes_ := by omega
        rw [hkeeps b hb'] at hd
        rw [(hsame b hb').internal] at hc
        obtain ⟨hc, hcd⟩ := hlev.child b h1 hb' d hd c hc
        rw [hkeeps c hc.2]
        omega
    · obtain rfl : j = w.numOfNodes_ + 1 := by omega
      rw [htop]
      omega

/-- The metadata are no block. -/
theorem Leveled.writeMetadata (h : t.Leveled height) : t.writeMetadata.Leveled height := by
  have hsame : ∀ j, 1 ≤ j → SameBlock t t.writeMetadata j :=
    fun _ hj => sameBlock_writeMetadata h.geometry hj
  refine ⟨⟨h.geometry.1, h.geometry.2⟩, h.depth_nonneg, h.root, h.height_root, fun b h1 h2 => ?_,
    fun b h1 h2 d hd c hc => ?_⟩
  · rw [(hsame b h1).layout]
    exact h.layout b h1 h2
  · rw [(hsame b h1).internal] at hc
    exact h.child b h1 h2 d hd c hc

end BPlusTree

end Laboratory.IndexFile
