import Laboratory.Algorithm.SortedInsert
import Laboratory.IndexFile.Equiv.Insert
import Laboratory.IndexFile.Equiv.Regrown

/-!
# Insertion into a tree

`Outcome` says how an insertion left the tree below a block: the tree kept its root, or it was
split in two at a promoted key.  What a leaf is to keep (`Q`) is a parameter; `Takes` says that the
leaf of the new entry keeps it.  `insertLeaf_outcome` is the insertion into a leaf.  Above it,
`Outcome.keep` is a node whose child kept its root and `Outcome.promote` a node that takes in a
promoted separator.  `insertBelow_outcome` is the induction.
-/

namespace Laboratory.IndexFile

/-- A separator that belongs into a gap is sorted into that gap. -/
theorem sortEntries_append {l m : List Entry} {x : Entry}
    (h : (l ++ x :: m).Pairwise fun x y => x.key < y.key) :
    sortEntries ((l ++ m) ++ [x]) = l ++ x :: m :=
  insertionSort_append_singleton Entry.le Entry.le_antisymm (h.imp fun hxy => Or.inl hxy)

namespace BPlusTree

variable {β : Type} [IntCodec β] {t t' : BPlusTree β} {Q : ℤ → ℤ → List Entry → Prop}

/-- A leaf on `[lo, hi)` with the entries `es` takes in `e`: it keeps `Q`, and so do both halves
when it is split. -/
structure Takes (t : BPlusTree β) (Q : ℤ → ℤ → List Entry → Prop) (e : Entry) (lo hi : ℤ)
    (es : List Entry) : Prop where
  fits : ((sortEntries (es ++ [e])).length : ℤ) ≤ t.capacity_ →
    Q lo hi (live (sortEntries (es ++ [e])))
  split : ∀ l x r, sortEntries (es ++ [e]) = l ++ x :: r → l.length = t.splitIndex.toNat →
    t.capacity_ < (sortEntries (es ++ [e])).length →
      lo < x.key ∧ x.key < hi ∧ x.key ≠ 0 ∧ Q lo x.key (live l) ∧ Q x.key hi (live (x :: r))

/-- The two outcomes of an insertion into the tree of depth `d` below block `b`: the tree keeps
its root, or it is split at a promoted key. -/
inductive Outcome (t : BPlusTree β) (Q : ℤ → ℤ → List Entry → Prop) (d : ℕ) (lo hi b : ℤ)
    (es : List Entry) : BPlusTree β × Entry → Prop where
  | kept {t' : BPlusTree β} (regrown : Regrown t t' d [b] es [b])
      (ordered : t'.OrderedBy Q d lo hi b) : Outcome t Q d lo hi b es (t', NO_SPLIT)
  | split {t' : BPlusTree β} {k nb : ℤ} (regrown : Regrown t t' d [b] es [b, nb])
      (left : t'.OrderedBy Q d lo k b) (right : t'.OrderedBy Q d k hi nb)
      (new : t.numOfNodes_ < nb) (le : nb ≤ t'.numOfNodes_) (ne_zero : k ≠ 0)
      (inRange : IntCodec.InRange β k) : Outcome t Q d lo hi b es (t', ⟨k, nb⟩)

/-! ### Insertion into a leaf -/

/-- **Insertion into a leaf.** -/
theorem insertLeaf_outcome (g : t.Geometry) {lo hi b : ℤ} {e : Entry}
    (ho : t.OrderedBy Q 0 lo hi b) (hbn : b ≤ t.numOfNodes_)
    (htakes : t.Takes Q e lo hi (t.readLeaf b).entries)
    (he : IntCodec.InRange β e.key ∧ IntCodec.InRange β e.value)
    (hn : IntCodec.InRange β (t.insertLeaf e b).1.numOfNodes_) :
    Outcome t Q 0 lo hi b (live [e]) (t.insertLeaf e b) := by
  have hperm : (live (sortEntries ((t.readLeaf b).entries ++ [e]))).Perm
      (live [e] ++ (t.readLeaf b).entries) := by
    refine (live_perm (sortEntries_perm _)).trans ?_
    rw [live_append, live_readLeaf]
    exact List.perm_append_comm
  have hrange := inRange_sortEntries (inRange_readLeaf t b) he
  have hwritten := insertLeaf_written g hbn he hn
  obtain ⟨hfits, hsplit⟩ := htakes
  generalize t.insertLeaf e b = r at *
  generalize sortEntries ((t.readLeaf b).entries ++ [e]) = es at *
  cases hwritten with
  | @kept t' hfit hw hnum hread hlay =>
    refine .kept ⟨hw.blockSize_eq, hw.capacity_eq, hw.rootBID_eq, hw.depth_eq, hw.numOfNodes_le,
      ?_, ?_, ?_, ?_⟩ ⟨ho.1, ?_, hlay⟩
    · intro j _ hj hjb
      exact hw.frame j hj (by simpa [treeIds] using hjb)
    · rw [newIds_eq_nil hnum, List.append_nil]
      exact List.Perm.refl _
    · simpa [treeEntries, treeLeaves, hread] using hperm
    · intro a z hc
      simpa [Chain, treeLeaves, hread] using hc
    · rw [hread]
      exact hfits hfit
  | @split t' l r x happ hmid hlong hw hnum hleft hright hlay =>
    -- the first key of the right half is the bound between the halves
    obtain ⟨hlo, hhi, hne, hQl, hQr⟩ := hsplit l x r happ hmid hlong
    rw [happ, live_append] at hperm
    have hx := hrange x (by rw [happ]; simp)
    refine .split ⟨hw.blockSize_eq, hw.capacity_eq, hw.rootBID_eq, hw.depth_eq, hw.numOfNodes_le,
      ?_, ?_, ?_, ?_⟩ ⟨hlo, ?_, hlay b (by simp)⟩ ⟨hhi, ?_, hlay _ (by simp)⟩ ?_ hnum.ge hne hx.1
    · intro j _ hj hjb
      refine hw.frame j hj ?_
      rw [List.mem_cons, List.mem_singleton, not_or]
      exact ⟨by simpa [treeIds] using hjb, by omega⟩
    · rw [newIds_succ hnum]
      exact List.Perm.refl _
    · simpa [treeEntries, treeLeaves, hleft, hright] using hperm
    · intro a z hc
      simpa [Chain, treeLeaves, hleft, hright] using hc
    · rw [hleft]
      exact hQl
    · rw [hright]
      exact hQr
    · omega

/-! ### Insertion of a promoted separator -/

section Node

open Separators

variable {d : ℕ} {lo hi b : ℤ} {es s₁ s₂ : List Entry}

/-- The order of the siblings, seen from the new state. -/
theorem front_back_congr {first : ℤ}
    (hsib : ∀ x ∈ frontChildren Entry.value first s₁ ++ s₂.map Entry.value,
      ∀ j ∈ t.treeIds d x, SameBlock t t' j)
    (hspan : Span Entry.key Entry.value (t.OrderedBy Q d) lo first (s₁ ++ s₂) hi) :
    Front Entry.key Entry.value (t'.OrderedBy Q d) lo first s₁ ∧
      Back Entry.key Entry.value (t'.OrderedBy Q d) s₂ hi := by
  obtain ⟨hfront, -, hback⟩ := (span_append s₁ s₂).mp hspan
  exact ⟨hfront.imp fun lo hi x hx ho =>
      orderedBy_congr (hsib x (List.mem_append_left _ hx)) ho,
    hback.imp fun lo hi x hx ho => orderedBy_congr (hsib x (List.mem_append_right _ hx)) ho⟩

/-- **The child kept its root**: the node stays as it is. -/
theorem Outcome.keep (ho : t.OrderedBy Q (d + 1) lo hi b) (hnodup : (t.treeIds (d + 1) b).Nodup)
    (hids : ∀ j ∈ t.treeIds (d + 1) b, 1 ≤ j ∧ j ≤ t.numOfNodes_)
    (hs : (t.readInternal b).separators = s₁ ++ s₂)
    (hr : Regrown t t' d [lastChild Entry.value (t.readInternal b).firstChild s₁] es
      [lastChild Entry.value (t.readInternal b).firstChild s₁])
    (hc : t'.OrderedBy Q d (lowerBound Entry.key lo s₁) (upperBound Entry.key hi s₂)
      (lastChild Entry.value (t.readInternal b).firstChild s₁)) :
    Outcome t Q (d + 1) lo hi b es (t', NO_SPLIT) := by
  obtain ⟨hgrown, hsib, hb⟩ := hr.children hnodup hids hs
  obtain ⟨hspan, hlay⟩ := ho
  rw [hs] at hspan
  obtain ⟨hfront, hback⟩ := front_back_congr hsib hspan
  have hkids : (t'.readInternal b).children =
      frontChildren Entry.value (t.readInternal b).firstChild s₁ ++
        [lastChild Entry.value (t.readInternal b).firstChild s₁] ++ s₂.map Entry.value := by
    rw [hb.internal, InternalNode.children, hs, children_append, List.append_assoc]
    rfl
  refine .kept (Regrown.node ?_ ?_ (by rw [newIds_eq_nil rfl]) hnodup hids).1 ⟨?_, ?_⟩
  · rwa [List.flatMap_singleton, hkids]
  · exact ⟨rfl, rfl, rfl, rfl, le_rfl, fun j _ _ => SameBlock.refl t' j⟩
  · rw [hb.internal, hs]
    exact (span_append s₁ s₂).mpr ⟨hfront, hc, hback⟩
  · rw [hb.layout, hlay]

/-- **The child was split**: the node takes in the promoted separator, and may itself be split. -/
theorem Outcome.promote (g : t.Geometry) (ho : t.OrderedBy Q (d + 1) lo hi b)
    (hnodup : (t.treeIds (d + 1) b).Nodup)
    (hids : ∀ j ∈ t.treeIds (d + 1) b, 1 ≤ j ∧ j ≤ t.numOfNodes_)
    (hs : (t.readInternal b).separators = s₁ ++ s₂) {k nb : ℤ}
    (hr : Regrown t t' d [lastChild Entry.value (t.readInternal b).firstChild s₁] es
      [lastChild Entry.value (t.readInternal b).firstChild s₁, nb])
    (hleft : t'.OrderedBy Q d (lowerBound Entry.key lo s₁) k
      (lastChild Entry.value (t.readInternal b).firstChild s₁))
    (hright : t'.OrderedBy Q d k (upperBound Entry.key hi s₂) nb) (hnew : t.numOfNodes_ < nb)
    (hle : nb ≤ t'.numOfNodes_) (hk : k ≠ 0) (hkr : IntCodec.InRange β k)
    (hn : IntCodec.InRange β (t'.propagateNode ⟨k, nb⟩ b).1.numOfNodes_) :
    Outcome t Q (d + 1) lo hi b es (t'.propagateNode ⟨k, nb⟩ b) := by
  obtain ⟨hgrown, hsib, hb⟩ := hr.children hnodup hids hs
  have hrange := hids b (mem_treeIds_self ..)
  have hspan := ho.1
  rw [hs] at hspan
  obtain ⟨hfront, hback⟩ := front_back_congr hsib hspan
  -- the promoted separator belongs between `s₁` and `s₂`
  have hspan' : Span Entry.key Entry.value (t'.OrderedBy Q d) lo (t.readInternal b).firstChild
      (s₁ ++ ⟨k, nb⟩ :: s₂) hi :=
    (span_append_insert s₁ s₂ ⟨k, nb⟩).mpr ⟨hfront, hleft, hright, hback⟩
  have hsorted : sortEntries ((t'.readInternal b).separators ++ [⟨k, nb⟩]) =
      s₁ ++ ⟨k, nb⟩ :: s₂ := by
    rw [hb.internal, hs]
    exact sortEntries_append (hspan'.pairwise OrderedBy.lt)
  have hkids : children Entry.value (t.readInternal b).firstChild (s₁ ++ ⟨k, nb⟩ :: s₂) =
      frontChildren Entry.value (t.readInternal b).firstChild s₁ ++
        [lastChild Entry.value (t.readInternal b).firstChild s₁, nb] ++
          s₂.map Entry.value := by
    rw [children_append, List.append_assoc]
    rfl
  rw [← hkids] at hgrown
  have hnbr : IntCodec.InRange β nb :=
    IntCodec.inRange_of_le (by omega) (hle.trans (numOfNodes_le_propagateNode ..)) hn
  -- a separator with key 0 would be invisible to the node that is read back
  have hnz : ∀ x ∈ s₁ ++ ⟨k, nb⟩ :: s₂, x.key ≠ 0 := by
    intro x hx
    rw [List.mem_append, List.mem_cons] at hx
    rcases hx with hx | rfl | hx
    · exact key_ne_zero_of_mem_readInternal (t := t) (b := b)
        (by rw [hs]; exact List.mem_append_left _ hx)
    · exact hk
    · exact key_ne_zero_of_mem_readInternal (t := t) (b := b)
        (by rw [hs]; exact List.mem_append_right _ hx)
  have hwritten := propagateNode_written (hr.geometry g) (hrange.2.trans hr.numOfNodes_le) hsorted
    ⟨hkr, hnbr⟩
  have hes : Entry.AllInRange β (s₁ ++ ⟨k, nb⟩ :: s₂) := by
    rw [← hsorted]
    exact inRange_sortEntries (inRange_readInternal t' b) ⟨hkr, hnbr⟩
  rw [hb.internal] at hwritten
  generalize s₁ ++ ⟨k, nb⟩ :: s₂ = ss at *
  generalize t'.propagateNode ⟨k, nb⟩ b = res at *
  cases hwritten with
  | @kept t'' hw hnum hread hfit hlay' =>
    -- the node has room: its children are the old ones and `nb`
    rw [visible_eq_self hnz] at hread
    obtain ⟨hnode, hsame⟩ := Regrown.node (by rwa [List.flatMap_singleton, hread]) hw
      (by rw [newIds_eq_nil hnum]) hnodup hids
    refine .kept hnode ⟨?_, hlay'⟩
    rw [hread]
    refine hspan'.imp fun lo hi x hx hox => orderedBy_congr ?_ hox
    exact hsame b (List.mem_singleton_self b) x (by rwa [hread])
  | @split t'' l r m happ _ _ hw hnum hl hr' hllen hrlen hlay' =>
    -- the node is split at `m`, which moves up and is in neither half
    subst happ
    rw [visible_eq_self fun x hx => hnz x (List.mem_append_left _ hx)] at hl
    rw [visible_eq_self fun x hx => hnz x (by simp [hx])] at hr'
    have hkids' : [b, t'.numOfNodes_ + 1].flatMap (fun x => (t''.readInternal x).children) =
        children Entry.value (t.readInternal b).firstChild (l ++ m :: r) := by
      rw [children_append_cons]
      simp [hl, hr', InternalNode.children]
    obtain ⟨hnode, hsame⟩ := Regrown.node (by rwa [hkids']) hw (by rw [newIds_succ hnum])
      hnodup hids
    obtain ⟨hspanl, hspanr⟩ := (span_append_cons l r m).mp hspan'
    refine .split hnode ⟨?_, hlay' b (by simp)⟩ ⟨?_, hlay' _ (by simp)⟩ ?_ hnum.ge
      (hnz m (by simp)) (hes m (by simp)).1
    · rw [hl]
      refine hspanl.imp fun lo hi x hx hox => orderedBy_congr ?_ hox
      exact hsame b (by simp) x (by rwa [hl])
    · rw [hr']
      refine hspanr.imp fun lo hi x hx hox => orderedBy_congr ?_ hox
      exact hsame (t'.numOfNodes_ + 1) (by simp) x (by rwa [hr'])
    · have := hr.numOfNodes_le
      omega

end Node

/-! ### The induction -/

open Separators

/-- The interval that the separators on the path of `k` leave to its leaf. -/
def pathBounds (t : BPlusTree β) (k : ℤ) : ℕ → ℤ → ℤ → ℤ → ℤ × ℤ
  | 0, lo, hi, _ => (lo, hi)
  | d + 1, lo, hi, b =>
    let node := t.readInternal b
    t.pathBounds k d (lowerBound Entry.key lo (node.separators.takeWhile fun s => s.key ≤ k))
      (upperBound Entry.key hi (node.separators.dropWhile fun s => s.key ≤ k))
      (descend k node.firstChild node.separators)

/-- **The leaf responsible for a key** keeps `Q` on an interval with the key in it. -/
theorem OrderedBy.dest {d : ℕ} {lo hi b k : ℤ} (ho : t.OrderedBy Q d lo hi b) (hlo : lo ≤ k)
    (hhi : k < hi) :
    (t.pathBounds k d lo hi b).1 ≤ k ∧ k < (t.pathBounds k d lo hi b).2 ∧
      Q (t.pathBounds k d lo hi b).1 (t.pathBounds k d lo hi b).2
        (t.readLeaf (t.getPathFrom k d b).dest).entries := by
  induction d generalizing lo hi b with
  | zero => exact ⟨hlo, hhi, ho.2.1⟩
  | succ d ih =>
    have hs := (List.takeWhile_append_dropWhile (p := fun s : Entry => s.key ≤ k)
      (l := (t.readInternal b).separators)).symm
    obtain ⟨hb1, hb2⟩ := takeWhile_bounds Entry.key hlo hhi (t.readInternal b).separators
    have hspan := ho.1
    rw [hs] at hspan
    obtain ⟨-, hchild, -⟩ := (span_append _ _).mp hspan
    rw [← descend_eq] at hchild
    exact ih hchild hb1 hb2

/-- Only the leaf responsible for `k` has an interval with `k` in it. -/
theorem OrderedBy.route {Q' : ℤ → ℤ → List Entry → Prop} {d : ℕ} {lo hi b k : ℤ}
    (hdest : ∀ lo hi, Q lo hi (t.readLeaf (t.getPathFrom k d b).dest).entries →
      Q' lo hi (t.readLeaf (t.getPathFrom k d b).dest).entries)
    (hother : ∀ lo hi es, ¬ (lo ≤ k ∧ k < hi) → Q lo hi es → Q' lo hi es)
    (ho : t.OrderedBy Q d lo hi b) : t.OrderedBy Q' d lo hi b := by
  induction d generalizing lo hi b with
  | zero => exact ⟨ho.1, hdest _ _ ho.2.1, ho.2.2⟩
  | succ d ih =>
    refine ⟨ho.1.route OrderedBy.lt (k := k) (fun lo hi hx => ?_) (fun lo hi x hk hx => ?_), ho.2⟩
    · rw [← descend_eq] at hx ⊢
      exact ih hdest hx
    · refine hx.imp_within fun lo' hi' es hlo hhi => hother lo' hi' es fun h => hk ?_
      exact ⟨hlo.trans h.1, h.2.trans_le hhi⟩

/-- A bound that is the key of a separator in one of the blocks, or else `bound'`, which in turn is
the key of a separator in the block above them, or else `bound`. -/
theorem bound_mem_cons {t : BPlusTree β} {bound bound' x b : ℤ} {js : List ℤ}
    (hbelow : x = bound' ∨ ∃ j ∈ js, ∃ s ∈ (t.readInternal j).separators, s.key = x)
    (hhere : bound' = bound ∨ ∃ s ∈ (t.readInternal b).separators, s.key = bound') :
    x = bound ∨ ∃ j ∈ b :: js, ∃ s ∈ (t.readInternal j).separators, s.key = x := by
  rcases hbelow with rfl | ⟨j, hj, hs⟩
  · exact hhere.imp_right fun hs => ⟨b, List.mem_cons_self .., hs⟩
  · exact .inr ⟨j, List.mem_cons_of_mem _ hj, hs⟩

/-- The bounds of a leaf are those of the tree or separators on the path to it. -/
theorem pathBounds_mem (t : BPlusTree β) (k : ℤ) (d : ℕ) (lo hi b : ℤ) :
    ((t.pathBounds k d lo hi b).1 = lo ∨ ∃ j ∈ (t.getPathFrom k d b).nodes.dropLast,
      ∃ s ∈ (t.readInternal j).separators, s.key = (t.pathBounds k d lo hi b).1) ∧
    ((t.pathBounds k d lo hi b).2 = hi ∨ ∃ j ∈ (t.getPathFrom k d b).nodes.dropLast,
      ∃ s ∈ (t.readInternal j).separators, s.key = (t.pathBounds k d lo hi b).2) := by
  induction d generalizing lo hi b with
  | zero => exact ⟨.inl rfl, .inl rfl⟩
  | succ d ih =>
    have hdrop : (t.getPathFrom k (d + 1) b).nodes.dropLast =
        b :: (t.getPathFrom k d (descend k (t.readInternal b).firstChild
          (t.readInternal b).separators)).nodes.dropLast := by
      rw [getPathFrom, List.dropLast_cons_of_ne_nil (getPathFrom_nodes_ne_nil t k d _)]
    rw [hdrop, pathBounds]
    obtain ⟨hlo, hhi⟩ := ih (lowerBound Entry.key lo
        ((t.readInternal b).separators.takeWhile fun s => s.key ≤ k))
      (upperBound Entry.key hi ((t.readInternal b).separators.dropWhile fun s => s.key ≤ k))
      (descend k (t.readInternal b).firstChild (t.readInternal b).separators)
    refine ⟨bound_mem_cons hlo ?_, bound_mem_cons hhi ?_⟩
    · refine (lowerBound_mem Entry.key lo _).imp_right ?_
      rintro ⟨s, hs, hkey⟩
      exact ⟨s, List.takeWhile_subset _ hs, hkey⟩
    · refine (upperBound_mem Entry.key hi _).imp_right ?_
      rintro ⟨s, hs, hkey⟩
      exact ⟨s, List.dropWhile_subset _ hs, hkey⟩

/-- **The outcome of an insertion**, by induction on the depth. -/
theorem insertBelow_outcome (g : t.Geometry) {d : ℕ} {lo hi b : ℤ} {e : Entry}
    (ho : t.OrderedBy Q d lo hi b) (hnodup : (t.treeIds d b).Nodup)
    (hids : ∀ j ∈ t.treeIds d b, 1 ≤ j ∧ j ≤ t.numOfNodes_) (hlo : lo ≤ e.key)
    (hhi : e.key < hi)
    (htakes : t.Takes Q e (t.pathBounds e.key d lo hi b).1 (t.pathBounds e.key d lo hi b).2
      (t.readLeaf (t.getPathFrom e.key d b).dest).entries)
    (he : IntCodec.InRange β e.key ∧ IntCodec.InRange β e.value)
    (hn : IntCodec.InRange β (t.insertBelow e d b).1.numOfNodes_) :
    Outcome t Q d lo hi b (live [e]) (t.insertBelow e d b) := by
  induction d generalizing lo hi b with
  | zero => exact insertLeaf_outcome g ho (hids b (mem_treeIds_self ..)).2 htakes he hn
  | succ d ih =>
    have hs := (List.takeWhile_append_dropWhile (p := fun s : Entry => s.key ≤ e.key)
      (l := (t.readInternal b).separators)).symm
    have hmem := descend_mem e.key (t.readInternal b)
    have hpos := hids b (mem_treeIds_self ..)
    obtain ⟨hb1, hb2⟩ := takeWhile_bounds Entry.key hlo hhi (t.readInternal b).separators
    have hspan := ho.1
    rw [hs] at hspan
    obtain ⟨-, hchild, -⟩ := (span_append _ _).mp hspan
    rw [← descend_eq] at hchild
    have hle := numOfNodes_le_insertBelow t e d
      (descend e.key (t.readInternal b).firstChild (t.readInternal b).separators)
    -- the child is a tree of depth `d` that does not share a block with its siblings
    have hnodup' : (t.treeIds d
        (descend e.key (t.readInternal b).firstChild (t.readInternal b).separators)).Nodup :=
      (List.nodup_flatMap.mp (List.nodup_cons.mp hnodup).2).1 _ hmem
    have hout := ih hchild hnodup' (fun j hj => hids j (treeIds_child hmem hj)) hb1 hb2 htakes
    rw [insertBelow] at hn ⊢
    generalize hr : t.insertBelow e d
      (descend e.key (t.readInternal b).firstChild (t.readInternal b).separators) = r at *
    by_cases hsplit : isNoSplit r.2
    · -- the child kept its root
      rw [if_pos hsplit] at hn ⊢
      specialize hout hn
      cases hout with
      | kept regrown ordered =>
        rw [descend_eq] at regrown ordered
        exact .keep ho hnodup hids hs regrown ordered
      | split regrown left right new =>
        rw [isNoSplit_of_pos (by omega)] at hsplit
        exact absurd hsplit (by decide)
    · rw [if_neg hsplit] at hn ⊢
      specialize hout (IntCodec.inRange_of_le (by omega) (numOfNodes_le_propagateNode ..) hn)
      cases hout with
      | kept => exact absurd isNoSplit_NO_SPLIT hsplit
      | split regrown left right new le ne_zero inRange =>
        rw [descend_eq] at regrown left
        exact .promote g ho hnodup hids hs regrown left right new le ne_zero inRange hn

end BPlusTree

end Laboratory.IndexFile
