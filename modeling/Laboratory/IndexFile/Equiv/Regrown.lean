import Laboratory.IndexFile.Equiv.NodeWrite
import Laboratory.IndexFile.Equiv.Subtree

/-!
# Trees that took in entries

`Regrown t t' d cs es cs'` says that the trees of depth `d` below `cs` took in the entries `es` and
are now the trees below `cs'`: the entries are the old ones and `es`, the ids are the old ones and
the ids allocated meanwhile, a chain through the old leaves is a chain through the new ones, and
no other block changed.

`Regrown.children` carries it from one child to all children of a node, `Regrown.node` from the
children to the nodes that are written above them.
-/

namespace Laboratory.IndexFile

/-! ### Allocated ids -/

/-- The block ids above `n`, up to `n'`. -/
def newIds (n n' : ℤ) : List ℤ :=
  (List.range (n' - n).toNat).map fun i : ℕ => n + 1 + i

theorem mem_newIds {n n' j : ℤ} : j ∈ newIds n n' ↔ n + 1 ≤ j ∧ j ≤ n' := by
  simp only [newIds, List.mem_map, List.mem_range]
  constructor
  · rintro ⟨i, hi, rfl⟩
    omega
  · intro h
    exact ⟨(j - n - 1).toNat, by omega, by omega⟩

theorem not_mem_newIds {n n' j : ℤ} (h : j ≤ n) : j ∉ newIds n n' := by
  rw [mem_newIds]
  omega

theorem newIds_eq_nil {n n' : ℤ} (h : n' = n) : newIds n n' = [] := by simp [newIds, h]

theorem newIds_succ {n n' : ℤ} (h : n' = n + 1) : newIds n n' = [n + 1] := by simp [newIds, h]

theorem newIds_trans {n n' n'' : ℤ} (h : n ≤ n') (h' : n' ≤ n'') :
    newIds n n'' = newIds n n' ++ newIds n' n'' := by
  have hsum : (n'' - n).toNat = (n' - n).toNat + (n'' - n').toNat := by omega
  unfold newIds
  rw [hsum, List.range_add, List.map_append, List.map_map]
  congr 1
  refine List.map_congr_left fun i _ => ?_
  simp only [Function.comp_apply]
  omega

theorem length_newIds (n n' : ℤ) : (newIds n n').length = (n' - n).toNat := by simp [newIds]

theorem nodup_newIds (n n' : ℤ) : (newIds n n').Nodup :=
  List.nodup_range.map fun i j h => by simpa using h

namespace BPlusTree

variable {β : Type} [IntCodec β] {t t' t'' : BPlusTree β}

/-! ### Trees that took in entries -/

/-- The trees of depth `d` below `cs` took in `es` and became the trees below `cs'`. -/
structure Regrown (t t' : BPlusTree β) (d : ℕ) (cs : List ℤ) (es : List Entry) (cs' : List ℤ) :
    Prop where
  blockSize_eq : t'.blockSize_ = t.blockSize_
  capacity_eq : t'.capacity_ = t.capacity_
  rootBID_eq : t'.rootBID_ = t.rootBID_
  depth_eq : t'.depth_ = t.depth_
  numOfNodes_le : t.numOfNodes_ ≤ t'.numOfNodes_
  frame : ∀ j, 1 ≤ j → j ≤ t.numOfNodes_ → j ∉ cs.flatMap (t.treeIds d) → SameBlock t t' j
  ids : (cs'.flatMap (t'.treeIds d)).Perm
    (cs.flatMap (t.treeIds d) ++ newIds t.numOfNodes_ t'.numOfNodes_)
  entries : (cs'.flatMap (t'.treeEntries d)).Perm (es ++ cs.flatMap (t.treeEntries d))
  chain : ∀ a z, t.Chain a (cs.flatMap (t.treeLeaves d)) z →
    t'.Chain a (cs'.flatMap (t'.treeLeaves d)) z

theorem Regrown.geometry {d : ℕ} {es : List Entry} {cs cs' : List ℤ} (g : t.Geometry)
    (h : Regrown t t' d cs es cs') : t'.Geometry :=
  ⟨by rw [h.capacity_eq, h.blockSize_eq]; exact g.1, by rw [h.capacity_eq]; exact g.2⟩

/-! ### From a child to the list of children -/

/-- **The siblings of a regrown tree**: they did not change, so the whole forest is regrown. -/
theorem Regrown.siblings {d : ℕ} {c : ℤ} {es : List Entry} {cs front back : List ℤ}
    (h : Regrown t t' d [c] es cs)
    (hnodup : ((front ++ c :: back).flatMap (t.treeIds d)).Nodup)
    (hids : ∀ j ∈ (front ++ c :: back).flatMap (t.treeIds d), 1 ≤ j ∧ j ≤ t.numOfNodes_) :
    Regrown t t' d (front ++ c :: back) es (front ++ cs ++ back) ∧
      ∀ x ∈ front ++ back, ∀ j ∈ t.treeIds d x, SameBlock t t' j := by
  rw [List.flatMap_append, List.flatMap_cons] at hnodup hids
  -- a block of a sibling is no block of `c`
  have hsame : ∀ x ∈ front ++ back, ∀ j ∈ t.treeIds d x, SameBlock t t' j := by
    intro x hx j hj
    obtain ⟨-, hcb, hdisj⟩ := List.nodup_append.mp hnodup
    obtain ⟨-, -, hdisj'⟩ := List.nodup_append.mp hcb
    rcases List.mem_append.mp hx with hx | hx
    · have hmem : j ∈ front.flatMap (t.treeIds d) := List.mem_flatMap.mpr ⟨x, hx, hj⟩
      obtain ⟨h1, h2⟩ := hids j (List.mem_append_left _ hmem)
      refine h.frame j h1 h2 fun hjc => ?_
      exact hdisj j hmem j (List.mem_append_left _ (by simpa using hjc)) rfl
    · have hmem : j ∈ back.flatMap (t.treeIds d) := List.mem_flatMap.mpr ⟨x, hx, hj⟩
      obtain ⟨h1, h2⟩ := hids j (List.mem_append_right _ (List.mem_append_right _ hmem))
      refine h.frame j h1 h2 fun hjc => ?_
      exact hdisj' j (by simpa using hjc) j hmem rfl
  have hfront : ∀ x ∈ front, ∀ j ∈ t.treeIds d x, SameBlock t t' j :=
    fun x hx => hsame x (List.mem_append_left _ hx)
  have hback : ∀ x ∈ back, ∀ j ∈ t.treeIds d x, SameBlock t t' j :=
    fun x hx => hsame x (List.mem_append_right _ hx)
  have hids' := h.ids
  have hentries' := h.entries
  rw [List.flatMap_singleton] at hids' hentries'
  refine ⟨⟨h.blockSize_eq, h.capacity_eq, h.rootBID_eq, h.depth_eq, h.numOfNodes_le,
    ?_, ?_, ?_, ?_⟩, hsame⟩
  · intro j h1 h2 hj
    refine h.frame j h1 h2 fun hjc => hj ?_
    simp only [List.flatMap_append, List.flatMap_cons, List.mem_append] at hjc ⊢
    simp at hjc
    exact Or.inr (Or.inl hjc)
  · rw [List.flatMap_append, List.flatMap_append, List.flatMap_append, List.flatMap_cons,
      List.flatMap_congr fun x hx => treeIds_congr (hfront x hx),
      List.flatMap_congr fun x hx => treeIds_congr (hback x hx)]
    grind
  · rw [List.flatMap_append, List.flatMap_append, List.flatMap_append, List.flatMap_cons,
      List.flatMap_congr fun x hx => treeEntries_congr (hfront x hx),
      List.flatMap_congr fun x hx => treeEntries_congr (hback x hx)]
    grind
  · intro a z hc
    rw [List.flatMap_append, List.flatMap_cons] at hc
    obtain ⟨m, hc1, hc2⟩ := chain_append.mp hc
    obtain ⟨m', hc2, hc3⟩ := chain_append.mp hc2
    rw [List.flatMap_append, List.flatMap_append,
      List.flatMap_congr fun x hx => treeLeaves_congr (hfront x hx),
      List.flatMap_congr fun x hx => treeLeaves_congr (hback x hx)]
    refine chain_append.mpr ⟨m', chain_append.mpr ⟨m, ?_, ?_⟩, ?_⟩
    · refine chain_congr (fun l hl => ?_) hc1
      obtain ⟨x, hx, hl⟩ := List.mem_flatMap.mp hl
      exact hfront x hx l ((treeLeaves_sublist ..).subset hl)
    · exact h.chain m m' (by simpa using hc2)
    · refine chain_congr (fun l hl => ?_) hc3
      obtain ⟨x, hx, hl⟩ := List.mem_flatMap.mp hl
      exact hback x hx l ((treeLeaves_sublist ..).subset hl)

/-! ### From the children to the node -/

theorem flatMap_treeIds_succ (t : BPlusTree β) (d : ℕ) (bs : List ℤ) :
    (bs.flatMap (t.treeIds (d + 1))).Perm
      (bs ++ (bs.flatMap fun x => (t.readInternal x).children).flatMap (t.treeIds d)) := by
  induction bs with
  | nil => exact List.Perm.refl _
  | cons b bs ih =>
    have hb : t.treeIds (d + 1) b = b :: (t.readInternal b).children.flatMap (t.treeIds d) := rfl
    rw [List.flatMap_cons, List.flatMap_cons, List.flatMap_append, hb]
    grind

/-- **A node above a regrown forest**: when the nodes `bs` divide the new forest among them, the
tree is regrown. -/
theorem Regrown.node {d : ℕ} {b : ℤ} {es : List Entry} {bs : List ℤ}
    (h : Regrown t t' d (t.readInternal b).children es
      (bs.flatMap fun x => (t''.readInternal x).children))
    (hw : Rewritten t' t'' bs) (hbs : bs = b :: newIds t'.numOfNodes_ t''.numOfNodes_)
    (hnodup : (t.treeIds (d + 1) b).Nodup)
    (hids : ∀ j ∈ t.treeIds (d + 1) b, 1 ≤ j ∧ j ≤ t.numOfNodes_) :
    Regrown t t'' (d + 1) [b] es bs ∧
      ∀ x ∈ bs, ∀ c ∈ (t''.readInternal x).children, ∀ j ∈ t'.treeIds d c, SameBlock t' t'' j := by
  have hb := hids b (mem_treeIds_self ..)
  -- the blocks of the new forest are none of `bs`
  have hforest : ∀ c ∈ bs.flatMap fun x => (t''.readInternal x).children,
      ∀ j ∈ t'.treeIds d c, SameBlock t' t'' j := by
    intro c hc j hj
    have hmem := h.ids.mem_iff.mp (List.mem_flatMap.mpr ⟨c, hc, hj⟩)
    have hle : j ≤ t'.numOfNodes_ := by
      rcases List.mem_append.mp hmem with hmem | hmem
      · exact (hids j (List.mem_cons_of_mem _ hmem)).2.trans h.numOfNodes_le
      · exact (mem_newIds.mp hmem).2
    refine hw.frame j hle ?_
    rw [hbs, List.mem_cons, not_or]
    refine ⟨?_, not_mem_newIds hle⟩
    rintro rfl
    rcases List.mem_append.mp hmem with hmem | hmem
    · exact (List.nodup_cons.mp hnodup).1 hmem
    · exact not_mem_newIds hb.2 hmem
  refine ⟨⟨hw.blockSize_eq.trans h.blockSize_eq, hw.capacity_eq.trans h.capacity_eq,
    hw.rootBID_eq.trans h.rootBID_eq, hw.depth_eq.trans h.depth_eq,
    h.numOfNodes_le.trans hw.numOfNodes_le, ?_, ?_, ?_, ?_⟩, ?_⟩
  · intro j h1 h2 hj
    rw [List.flatMap_singleton, treeIds, List.mem_cons, not_or] at hj
    refine (h.frame j h1 h2 hj.2).trans (hw.frame j (h2.trans h.numOfNodes_le) ?_)
    rw [hbs, List.mem_cons, not_or]
    exact ⟨hj.1, not_mem_newIds (h2.trans h.numOfNodes_le)⟩
  · refine (flatMap_treeIds_succ t'' d bs).trans ?_
    rw [List.flatMap_congr fun c hc => treeIds_congr (hforest c hc), List.flatMap_singleton,
      treeIds, newIds_trans h.numOfNodes_le hw.numOfNodes_le]
    have := h.ids
    rw [hbs] at this ⊢
    grind
  · have hentries := h.entries
    rw [← List.flatMap_congr fun c hc => treeEntries_congr (hforest c hc),
      List.flatMap_assoc] at hentries
    rw [List.flatMap_singleton, treeEntries_succ,
      List.flatMap_congr fun x _ => treeEntries_succ t'' d x]
    exact hentries
  · intro a z hc
    rw [List.flatMap_singleton, treeLeaves] at hc
    have hchain := h.chain a z hc
    have hleaves : bs.flatMap (t''.treeLeaves (d + 1)) =
        (bs.flatMap fun x => (t''.readInternal x).children).flatMap (t'.treeLeaves d) := by
      rw [← List.flatMap_congr fun c hc => treeLeaves_congr (hforest c hc), List.flatMap_assoc]
      rfl
    rw [hleaves]
    refine chain_congr (fun l hl => ?_) hchain
    obtain ⟨c, hc, hl⟩ := List.mem_flatMap.mp hl
    exact hforest c hc l ((treeLeaves_sublist ..).subset hl)
  · intro x hx c hc
    exact hforest c (List.mem_flatMap.mpr ⟨x, hx, hc⟩)

section Node

open Separators

variable {d : ℕ} {b : ℤ} {es s₁ s₂ : List Entry}

/-- The child between the separators `s₁` and `s₂` was regrown: so were all children, the
siblings and the node itself did not change. -/
theorem Regrown.children {cs : List ℤ} (hnodup : (t.treeIds (d + 1) b).Nodup)
    (hids : ∀ j ∈ t.treeIds (d + 1) b, 1 ≤ j ∧ j ≤ t.numOfNodes_)
    (hs : (t.readInternal b).separators = s₁ ++ s₂)
    (h : Regrown t t' d [lastChild Entry.value (t.readInternal b).firstChild s₁] es cs) :
    Regrown t t' d (t.readInternal b).children es
        (frontChildren Entry.value (t.readInternal b).firstChild s₁ ++ cs ++
          s₂.map Entry.value) ∧
      (∀ x ∈ frontChildren Entry.value (t.readInternal b).firstChild s₁ ++ s₂.map Entry.value,
        ∀ j ∈ t.treeIds d x, SameBlock t t' j) ∧
      SameBlock t t' b := by
  have hkids : (t.readInternal b).children =
      frontChildren Entry.value (t.readInternal b).firstChild s₁ ++
        lastChild Entry.value (t.readInternal b).firstChild s₁ :: s₂.map Entry.value := by
    rw [InternalNode.children, hs, children_append]
  obtain ⟨hb, hforest⟩ := List.nodup_cons.mp hnodup
  rw [hkids] at hforest hb ⊢
  obtain ⟨hgrown, hsib⟩ := h.siblings hforest fun j hj =>
    hids j (List.mem_cons_of_mem _ (by rwa [hkids]))
  refine ⟨hgrown, hsib, ?_⟩
  have hrange := hids b (mem_treeIds_self ..)
  exact hgrown.frame b hrange.1 hrange.2 hb

end Node

end BPlusTree

end Laboratory.IndexFile
