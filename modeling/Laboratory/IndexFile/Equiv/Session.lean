import Laboratory.IndexFile.Equiv.NodeInsert

/-!
# The invariant of a session

`HoldsBy t Q lo hi es`: the leaves of the tree below `rootBID_` keep `Q`, and the tree owns the
blocks `1 .. numOfNodes_`, is chained from block `1`, and holds the entries `es`.  An insertion
keeps what the leaf of the new entry keeps (`HoldsBy.insert`).

`Holds t es` is the case of a search tree with distinct keys, and `Represents t es` adds the empty
index.  An insertion keeps it (`Represents.insert`), so every session does (`represents_insertAll`).
-/

namespace Laboratory.IndexFile

namespace BPlusTree

variable {β : Type} [IntCodec β] {t t' : BPlusTree β}

/-! ### Increasing leaves -/

omit [IntCodec β] in
theorem Increasing.mono {lo lo' hi hi' : ℤ} {es : List Entry} (hlo : lo' ≤ lo) (hhi : hi ≤ hi')
    (h : Increasing lo hi es) : Increasing lo' hi' es :=
  ⟨h.1, fun e he => ⟨hlo.trans (h.2 e he).1, (h.2 e he).2.trans_le hhi⟩⟩

/-- Entries with distinct keys are sorted strictly. -/
theorem sortEntries_pairwise {es : List Entry} (h : (es.map Entry.key).Nodup) :
    (sortEntries es).Pairwise fun x y => x.key < y.key := by
  have hle : (sortEntries es).Pairwise Entry.le := List.pairwise_insertionSort Entry.le es
  have hne : ((sortEntries es).map Entry.key).Nodup := ((sortEntries_perm es).map _).nodup_iff.mpr h
  rw [List.Nodup, List.pairwise_map] at hne
  refine (hle.and hne).imp fun hxy => ?_
  obtain ⟨hxy, hne⟩ := hxy
  unfold Entry.le at hxy
  omega

omit [IntCodec β] in
/-- An increasing leaf takes in an entry with a new key, if it does not promote the key `0`. -/
theorem Increasing.takes {lo hi : ℤ} {es : List Entry} {e : Entry} (h : Increasing lo hi es)
    (hlo : lo ≤ e.key) (hhi : e.key < hi) (hfresh : ∀ x ∈ es, x.key ≠ e.key)
    (hne : ∀ l x r, sortEntries (es ++ [e]) = l ++ x :: r → l.length = t.splitIndex.toNat →
      t.capacity_ < (sortEntries (es ++ [e])).length → x.key ≠ 0) (hmid : 0 < t.splitIndex.toNat) :
    t.Takes Increasing e lo hi es := by
  have hsorted : Increasing lo hi (sortEntries (es ++ [e])) := by
    refine ⟨sortEntries_pairwise ?_, fun x hx => ?_⟩
    · rw [List.map_append, List.nodup_append]
      refine ⟨?_, List.nodup_singleton _, fun k hk k' hk' => ?_⟩
      · rw [List.Nodup, List.pairwise_map]
        exact h.1.imp ne_of_lt
      · obtain ⟨x, hx, rfl⟩ := List.mem_map.mp hk
        rw [List.map_singleton, List.mem_singleton] at hk'
        rw [hk']
        exact hfresh x hx
    · rcases List.mem_append.mp ((sortEntries_perm _).mem_iff.mp hx) with hx | hx
      · exact h.2 x hx
      · rw [List.mem_singleton.mp hx]
        exact ⟨hlo, hhi⟩
  have hlive : ∀ {lo hi es}, Increasing lo hi es → Increasing lo hi (live es) :=
    fun h => ⟨h.1.filter _, fun x hx => h.2 x (List.mem_of_mem_filter hx)⟩
  refine ⟨fun _ => hlive hsorted, fun l x r happ hl hlong => ?_⟩
  have hx := hne l x r happ hl hlong
  rw [happ] at hsorted
  obtain ⟨hpair, hbounds⟩ := hsorted
  obtain ⟨hpl, hpr, hlr⟩ := List.pairwise_append.mp hpair
  obtain ⟨y, hy⟩ := List.exists_mem_of_length_pos (hl ▸ hmid)
  refine ⟨?_, (hbounds x (by simp)).2, hx, hlive ⟨hpl, ?_⟩, hlive ⟨hpr, ?_⟩⟩
  · exact (hbounds y (List.mem_append_left _ hy)).1.trans_lt (hlr y hy x (List.mem_cons_self ..))
  · intro z hz
    exact ⟨(hbounds z (List.mem_append_left _ hz)).1, hlr z hz x (List.mem_cons_self ..)⟩
  · intro z hz
    refine ⟨?_, (hbounds z (List.mem_append_right _ hz)).2⟩
    rcases List.mem_cons.mp hz with rfl | hz
    · exact le_rfl
    · exact ((List.pairwise_cons.mp hpr).1 z hz).le

/-! ### The tree below the root -/

/-- The tree below `rootBID_` holds the entries `es`, and its leaves keep `Q`, for keys in
`[lo, hi)`. -/
structure HoldsBy (t : BPlusTree β) (Q : ℤ → ℤ → List Entry → Prop) (lo hi : ℤ)
    (es : List Entry) : Prop where
  geometry : t.Geometry
  depth_nonneg : 0 ≤ t.depth_
  ordered : t.OrderedBy Q t.depth_.toNat lo hi t.rootBID_
  ids : (t.treeIds t.depth_.toNat t.rootBID_).Perm (newIds 0 t.numOfNodes_)
  chain : t.Chain 1 (t.treeLeaves t.depth_.toNat t.rootBID_) 0
  entries : (t.treeEntries t.depth_.toNat t.rootBID_).Perm es

/-- The tree below `rootBID_` holds the entries `es`. -/
structure Holds (t : BPlusTree β) (es : List Entry) : Prop where
  geometry : t.Geometry
  depth_nonneg : 0 ≤ t.depth_
  ordered : ∃ lo hi, t.Ordered t.depth_.toNat lo hi t.rootBID_
  ids : (t.treeIds t.depth_.toNat t.rootBID_).Perm (newIds 0 t.numOfNodes_)
  chain : t.Chain 1 (t.treeLeaves t.depth_.toNat t.rootBID_) 0
  entries : (t.treeEntries t.depth_.toNat t.rootBID_).Perm es

/-- The index is empty, or its tree holds the entries `es` and its leaves keep `Q`. -/
inductive RepresentsBy (t : BPlusTree β) (Q : ℤ → ℤ → List Entry → Prop) (es : List Entry) :
    Prop where
  | empty (geometry : t.Geometry) (numOfNodes_eq : t.numOfNodes_ = 0) (rootBID_eq : t.rootBID_ = 0)
      (depth_eq : t.depth_ = 0) (entries : es = [])
  | tree {lo hi : ℤ} (holds : t.HoldsBy Q lo hi es)

/-- The index is empty, or its tree holds the entries `es`. -/
inductive Represents (t : BPlusTree β) (es : List Entry) : Prop where
  | empty (geometry : t.Geometry) (numOfNodes_eq : t.numOfNodes_ = 0) (rootBID_eq : t.rootBID_ = 0)
      (depth_eq : t.depth_ = 0) (entries : es = [])
  | tree (holds : t.Holds es)

namespace HoldsBy

variable {Q Q' : ℤ → ℤ → List Entry → Prop} {lo hi : ℤ} {es : List Entry}

theorem nodup (h : t.HoldsBy Q lo hi es) : (t.treeIds t.depth_.toNat t.rootBID_).Nodup :=
  h.ids.nodup_iff.mpr (nodup_newIds 0 _)

theorem mem_ids (h : t.HoldsBy Q lo hi es) {j : ℤ} :
    j ∈ t.treeIds t.depth_.toNat t.rootBID_ ↔ 1 ≤ j ∧ j ≤ t.numOfNodes_ := by
  rw [h.ids.mem_iff, mem_newIds]
  omega

theorem one_le_numOfNodes (h : t.HoldsBy Q lo hi es) : 1 ≤ t.numOfNodes_ := by
  obtain ⟨h1, h2⟩ := h.mem_ids.mp (mem_treeIds_self ..)
  omega

/-- A single node is a root leaf. -/
theorem depth_eq_zero_iff (h : t.HoldsBy Q lo hi es) : t.depth_.toNat = 0 ↔ t.numOfNodes_ = 1 := by
  have hlen := h.ids.length_eq
  have hone := h.one_le_numOfNodes
  rw [length_newIds] at hlen
  rcases hd : t.depth_.toNat with _ | d
  · rw [hd] at hlen
    have hlen1 : (t.treeIds 0 t.rootBID_).length = 1 := rfl
    omega
  · rw [hd] at hlen
    -- an internal node has a child, and the child a block
    have hlen2 : 2 ≤ (t.treeIds (d + 1) t.rootBID_).length := by
      have hmem := descend_mem 0 (t.readInternal t.rootBID_)
      have hchild := List.mem_flatMap.mpr ⟨_, hmem, mem_treeIds_self t d _⟩
      have hpos := List.length_pos_of_mem hchild
      rw [treeIds, List.length_cons]
      omega
    omega

/-- The leaves and the bounds may be given another property. -/
theorem ordered_of (h : t.HoldsBy Q lo hi es) {lo' hi' : ℤ}
    (ho : t.OrderedBy Q' t.depth_.toNat lo' hi' t.rootBID_) : t.HoldsBy Q' lo' hi' es :=
  ⟨h.geometry, h.depth_nonneg, ho, h.ids, h.chain, h.entries⟩

/-- Changes outside the blocks keep the tree. -/
theorem congr (h : t.HoldsBy Q lo hi es) (hbs : t'.blockSize_ = t.blockSize_)
    (hcap : t'.capacity_ = t.capacity_) (hroot : t'.rootBID_ = t.rootBID_)
    (hdepth : t'.depth_ = t.depth_) (hnum : t'.numOfNodes_ = t.numOfNodes_)
    (hsame : ∀ j, 1 ≤ j → j ≤ t.numOfNodes_ → SameBlock t t' j) : t'.HoldsBy Q lo hi es := by
  have hblocks : ∀ j ∈ t.treeIds t.depth_.toNat t.rootBID_, SameBlock t t' j :=
    fun j hj => hsame j (h.mem_ids.mp hj).1 (h.mem_ids.mp hj).2
  refine ⟨⟨by rw [hcap, hbs]; exact h.geometry.1, by rw [hcap]; exact h.geometry.2⟩,
    by rw [hdepth]; exact h.depth_nonneg, ?_, ?_, ?_, ?_⟩
  · rw [hdepth, hroot]
    exact orderedBy_congr hblocks h.ordered
  · rw [hdepth, hroot, hnum, treeIds_congr hblocks]
    exact h.ids
  · rw [hdepth, hroot, treeLeaves_congr hblocks]
    exact chain_congr (fun l hl => hblocks l ((treeLeaves_sublist ..).subset hl)) h.chain
  · rw [hdepth, hroot, treeEntries_congr hblocks]
    exact h.entries

theorem writeMetadata (h : t.HoldsBy Q lo hi es) : t.writeMetadata.HoldsBy Q lo hi es :=
  h.congr rfl rfl rfl rfl rfl fun _ hj _ => sameBlock_writeMetadata h.geometry hj

/-- **The root after an insertion**: it was kept, or a new root is put above its two halves. -/
theorem growRoot (h : t.HoldsBy Q lo hi es) {added : List Entry} {r : BPlusTree β × Entry}
    (hout : Outcome t Q t.depth_.toNat lo hi t.rootBID_ added r)
    (hn : IntCodec.InRange β (r.1.growRoot r.2).numOfNodes_) :
    (r.1.growRoot r.2).HoldsBy Q lo hi (added ++ es) := by
  have hone := h.one_le_numOfNodes
  have hdepth0 := h.depth_nonneg
  cases hout with
  | @kept t' hr ho =>
    have hids := hr.ids
    have hentries := hr.entries
    rw [List.flatMap_singleton, List.flatMap_singleton] at hids hentries
    rw [BPlusTree.growRoot, if_pos isNoSplit_NO_SPLIT]
    refine ⟨hr.geometry h.geometry, by rwa [hr.depth_eq], ?_, ?_, ?_, ?_⟩
    · rwa [hr.depth_eq, hr.rootBID_eq]
    · rw [hr.depth_eq, hr.rootBID_eq, newIds_trans (by omega) hr.numOfNodes_le]
      exact hids.trans (h.ids.append_right _)
    · rw [hr.depth_eq, hr.rootBID_eq]
      simpa using hr.chain 1 0 (by simpa using h.chain)
    · rw [hr.depth_eq, hr.rootBID_eq]
      exact hentries.trans (h.entries.append_left added)
  | @split t' k nb hr hleft hright hnew hle hk hkr =>
    have hnle := hr.numOfNodes_le
    have hroot := h.mem_ids.mp (mem_treeIds_self ..)
    have hids := hr.ids
    have hentries := hr.entries
    have hchain := hr.chain 1 0 (by simpa using h.chain)
    rw [List.flatMap_singleton] at hids hentries
    obtain ⟨hcap, hrootBID, hdepth, hnum, hread, hlay, hsame⟩ := growRoot_written
      (hr.geometry h.geometry) (k := k) (v := nb) (by rw [hr.rootBID_eq]; omega) (by omega) hle
      hkr hn
    have hgeo : (t'.growRoot ⟨k, nb⟩).Geometry := geometry_growRoot (hr.geometry h.geometry) _
    dsimp only
    generalize t'.growRoot ⟨k, nb⟩ = w at *
    rw [hr.rootBID_eq, visible_eq_self (by simpa using hk)] at hread
    have hkids : (w.readInternal w.rootBID_).children = [t.rootBID_, nb] := by
      rw [hrootBID, hread]
      rfl
    -- the two halves are as they were before the new root was written
    have hforest : ∀ c ∈ [t.rootBID_, nb], ∀ j ∈ t'.treeIds t.depth_.toNat c, SameBlock t' w j := by
      intro c hc j hj
      apply hsame
      rcases List.mem_append.mp (hids.mem_iff.mp (List.mem_flatMap.mpr ⟨c, hc, hj⟩)) with hj | hj
      · have := h.mem_ids.mp hj
        omega
      · exact (mem_newIds.mp hj).2
    have hdepth' : w.depth_.toNat = t.depth_.toNat + 1 := by
      rw [hdepth, hr.depth_eq]
      omega
    refine ⟨hgeo, by rw [hdepth, hr.depth_eq]; omega, ?_, ?_, ?_, ?_⟩
    · rw [hdepth', OrderedBy, hrootBID, hread]
      refine ⟨⟨?_, ?_⟩, hlay⟩
      · exact orderedBy_congr (hforest _ (by simp)) hleft
      · exact orderedBy_congr (hforest _ (by simp)) hright
    · rw [hdepth', treeIds, hkids, List.flatMap_congr fun c hc => treeIds_congr (hforest c hc),
        hrootBID, hnum, newIds_trans (show (0 : ℤ) ≤ t.numOfNodes_ by omega)
          (show _ ≤ t'.numOfNodes_ + 1 by omega),
        newIds_trans hnle (show t'.numOfNodes_ ≤ t'.numOfNodes_ + 1 by omega), newIds_succ rfl]
      have := h.ids
      grind
    · rw [hdepth', treeLeaves, hkids,
        List.flatMap_congr fun c hc => treeLeaves_congr (hforest c hc)]
      refine chain_congr (fun l hl => ?_) hchain
      obtain ⟨c, hc, hl⟩ := List.mem_flatMap.mp hl
      exact hforest c hc l ((treeLeaves_sublist ..).subset hl)
    · rw [hdepth', treeEntries_succ, hkids,
        List.flatMap_congr fun c hc => treeEntries_congr (hforest c hc)]
      exact hentries.trans (h.entries.append_left added)

/-- One insertion into a tree is the recursion, a new root if need be, and the metadata. -/
theorem insert_eq (h : t.HoldsBy Q lo hi es) (e : Entry) :
    t.insert e = ((t.insertBelow e t.depth_.toNat t.rootBID_).1.growRoot
      (t.insertBelow e t.depth_.toNat t.rootBID_).2).writeMetadata := by
  refine insert_eq_growRoot h.one_le_numOfNodes h.depth_nonneg h.depth_eq_zero_iff ?_ ?_ e
  · intro hone
    have hchain := h.chain
    rw [h.depth_eq_zero_iff.mpr hone] at hchain
    exact hchain.2
  · intro d hd
    have hnodup := h.nodup
    rw [hd] at hnodup
    exact (List.nodup_cons.mp hnodup).1

theorem getPath_eq (h : t.HoldsBy Q lo hi es) (k : ℤ) :
    t.getPath k = t.getPathFrom k t.depth_.toNat t.rootBID_ := by
  rw [getPath, if_neg (not_lt.mpr h.depth_nonneg)]

/-- The entries of a leaf are among those of the tree. -/
theorem mem_of_mem_readLeaf (h : t.HoldsBy Q lo hi es) {k : ℤ} {x : Entry}
    (hx : x ∈ (t.readLeaf (t.getPath k).dest).entries) : x ∈ es := by
  rw [h.getPath_eq] at hx
  exact h.entries.mem_iff.mp (List.mem_flatMap.mpr ⟨_, dest_mem_treeLeaves .., hx⟩)

/-- The leaf of a new entry on its interval takes the entry in. -/
def LeafTakes (t : BPlusTree β) (Q : ℤ → ℤ → List Entry → Prop) (lo hi : ℤ) (e : Entry) : Prop :=
  t.Takes Q e (t.pathBounds e.key t.depth_.toNat lo hi t.rootBID_).1
    (t.pathBounds e.key t.depth_.toNat lo hi t.rootBID_).2
      (t.readLeaf (t.getPath e.key).dest).entries

/-- The leaf responsible for a key, on its interval. -/
theorem dest (h : t.HoldsBy Q lo hi es) {k : ℤ} (hlo : lo ≤ k) (hhi : k < hi) :
    (t.pathBounds k t.depth_.toNat lo hi t.rootBID_).1 ≤ k ∧
      k < (t.pathBounds k t.depth_.toNat lo hi t.rootBID_).2 ∧
        Q (t.pathBounds k t.depth_.toNat lo hi t.rootBID_).1
          (t.pathBounds k t.depth_.toNat lo hi t.rootBID_).2
          (t.readLeaf (t.getPath k).dest).entries := by
  rw [h.getPath_eq]
  exact h.ordered.dest hlo hhi

/-- **An insertion keeps what the leaf of the new entry keeps.** -/
theorem insert (h : t.HoldsBy Q lo hi es) {e : Entry} (hlo : lo ≤ e.key) (hhi : e.key < hi)
    (htakes : LeafTakes t Q lo hi e)
    (he : IntCodec.InRange β e.key ∧ IntCodec.InRange β e.value)
    (hn : IntCodec.InRange β (t.insert e).numOfNodes_) :
    (t.insert e).HoldsBy Q lo hi (live [e] ++ es) := by
  have hone := h.one_le_numOfNodes
  rw [h.insert_eq] at hn ⊢
  have hbelow : IntCodec.InRange β (t.insertBelow e t.depth_.toNat t.rootBID_).1.numOfNodes_ := by
    have hle := numOfNodes_le_insertBelow t e t.depth_.toNat t.rootBID_
    exact IntCodec.inRange_of_le (by omega) (numOfNodes_le_growRoot ..) hn
  rw [LeafTakes, h.getPath_eq] at htakes
  exact (h.growRoot (insertBelow_outcome h.geometry h.ordered h.nodup (fun j hj => h.mem_ids.mp hj)
    hlo hhi htakes he hbelow) hn).writeMetadata

end HoldsBy

/-! ### Sessions -/

/-- The first insertion makes a root leaf. -/
theorem holdsBy_insertEmpty {Q : ℤ → ℤ → List Entry → Prop} {lo hi : ℤ} (g : t.Geometry)
    (hdepth : t.depth_ = 0) {e : Entry} (hlt : lo < hi) (hQ : Q lo hi (live [e]))
    (he : IntCodec.InRange β e.key ∧ IntCodec.InRange β e.value) :
    (t.insertEmpty e).HoldsBy Q lo hi (live [e]) := by
  have hlen : (([e] : List Entry).length : ℤ) ≤ t.capacity_ := g.capacity_pos
  have hread : (t.insertEmpty e).readLeaf 1 = ⟨live [e], 0⟩ := by
    refine readLeaf_writeLeaf_live (t := { t with numOfNodes_ := 1, rootBID_ := 1 }) ⟨g.1, g.2⟩ 1
      hlen ?_ IntCodec.inRange_zero
    intro x hx
    rw [List.mem_singleton.mp hx]
    exact he
  have hd : (t.insertEmpty e).depth_.toNat = 0 := by
    show t.depth_.toNat = 0
    rw [hdepth]
    rfl
  refine ⟨⟨g.1, g.2⟩, hdepth.ge, ?_, ?_, ?_, ?_⟩
  · rw [hd]
    show (t.insertEmpty e).OrderedBy Q 0 lo hi 1
    rw [OrderedBy, hread]
    exact ⟨hlt, hQ, layout_writeLeaf _ _ _ _⟩
  · rw [hd]
    exact List.Perm.refl _
  · rw [hd]
    refine ⟨rfl, ?_⟩
    show ((t.insertEmpty e).readLeaf 1).next = 0
    rw [hread]
  · rw [hd]
    show (((t.insertEmpty e).readLeaf 1).entries ++ []).Perm (live [e])
    rw [hread, List.append_nil]

namespace RepresentsBy

variable {Q : ℤ → ℤ → List Entry → Prop} {es : List Entry}

theorem geometry (h : t.RepresentsBy Q es) : t.Geometry := by
  cases h with
  | empty g => exact g
  | tree h => exact h.geometry

theorem numOfNodes_nonneg (h : t.RepresentsBy Q es) : 0 ≤ t.numOfNodes_ := by
  cases h with
  | empty _ hn => exact hn.ge
  | tree h => exact zero_le_one.trans h.one_le_numOfNodes

theorem imp {Q' : ℤ → ℤ → List Entry → Prop} (hQ : ∀ lo hi es, Q lo hi es → Q' lo hi es)
    (h : t.RepresentsBy Q es) : t.RepresentsBy Q' es := by
  cases h with
  | empty g hn hroot hdepth hes => exact .empty g hn hroot hdepth hes
  | tree h => exact .tree (h.ordered_of (h.ordered.imp hQ))

/-- The order of the entries does not matter. -/
theorem perm {es' : List Entry} (h : t.RepresentsBy Q es) (hp : es.Perm es') :
    t.RepresentsBy Q es' := by
  cases h with
  | empty g hn hroot hdepth hes =>
    subst hes
    exact .empty g hn hroot hdepth (List.nil_perm.mp hp)
  | tree h =>
    exact .tree ⟨h.geometry, h.depth_nonneg, h.ordered, h.ids, h.chain, h.entries.trans hp⟩

/-- **An insertion keeps the invariant**, if the leaf of the entry keeps it. -/
theorem insert (h : t.RepresentsBy Q es) {e : Entry}
    (hmono : ∀ lo lo' hi hi' es, lo' ≤ lo → hi ≤ hi' → Q lo hi es → Q lo' hi' es)
    (hfirst : Q e.key (e.key + 1) (live [e]))
    (htakes : ∀ lo hi, t.HoldsBy Q lo hi es → lo ≤ e.key → e.key < hi →
      HoldsBy.LeafTakes t Q lo hi e)
    (he : IntCodec.InRange β e.key ∧ IntCodec.InRange β e.value)
    (hn : IntCodec.InRange β (t.insert e).numOfNodes_) :
    (t.insert e).RepresentsBy Q (live [e] ++ es) := by
  cases h with
  | empty g hn0 _ hdepth hes =>
    subst hes
    rw [BPlusTree.insert, if_pos hn0, List.append_nil]
    exact .tree (holdsBy_insertEmpty g hdepth (lt_add_one e.key) hfirst he).writeMetadata
  | @tree lo hi h =>
    -- the bounds of the root are widened to make room for the new key
    have hwide := h.ordered_of (h.ordered.mono hmono (min_le_left lo e.key)
      (le_max_left hi (e.key + 1)))
    have hlo : min lo e.key ≤ e.key := min_le_right ..
    have hhi : e.key < max hi (e.key + 1) := by omega
    exact .tree (hwide.insert hlo hhi (htakes _ _ hwide hlo hhi) he hn)

end RepresentsBy

/-! ### Sessions with distinct keys -/

namespace Holds

variable {es : List Entry}

theorem holdsBy (h : t.Holds es) : ∃ lo hi, t.HoldsBy Increasing lo hi es := by
  obtain ⟨lo, hi, ho⟩ := h.ordered
  exact ⟨lo, hi, h.geometry, h.depth_nonneg, (ordered_iff h.geometry).mp ho, h.ids, h.chain,
    h.entries⟩

theorem of_holdsBy {lo hi : ℤ} (h : t.HoldsBy Increasing lo hi es) : t.Holds es :=
  ⟨h.geometry, h.depth_nonneg, ⟨lo, hi, (ordered_iff h.geometry).mpr h.ordered⟩, h.ids, h.chain,
    h.entries⟩

theorem nodup (h : t.Holds es) : (t.treeIds t.depth_.toNat t.rootBID_).Nodup :=
  h.ids.nodup_iff.mpr (nodup_newIds 0 _)

theorem mem_ids (h : t.Holds es) {j : ℤ} :
    j ∈ t.treeIds t.depth_.toNat t.rootBID_ ↔ 1 ≤ j ∧ j ≤ t.numOfNodes_ := by
  obtain ⟨lo, hi, h⟩ := h.holdsBy
  exact h.mem_ids

theorem one_le_numOfNodes (h : t.Holds es) : 1 ≤ t.numOfNodes_ := by
  obtain ⟨lo, hi, h⟩ := h.holdsBy
  exact h.one_le_numOfNodes

end Holds

theorem represents_iff {es : List Entry} : t.Represents es ↔ t.RepresentsBy Increasing es := by
  constructor
  · rintro (⟨g, hn, hroot, hdepth, hes⟩ | h)
    · exact .empty g hn hroot hdepth hes
    · obtain ⟨lo, hi, h⟩ := h.holdsBy
      exact .tree h
  · rintro (⟨g, hn, hroot, hdepth, hes⟩ | h)
    · exact .empty g hn hroot hdepth hes
    · exact .tree (.of_holdsBy h)

theorem Represents.geometry {es : List Entry} (h : t.Represents es) : t.Geometry :=
  (represents_iff.mp h).geometry

theorem Represents.numOfNodes_nonneg {es : List Entry} (h : t.Represents es) :
    0 ≤ t.numOfNodes_ :=
  (represents_iff.mp h).numOfNodes_nonneg

/-- The order of the entries does not matter. -/
theorem Represents.perm {es es' : List Entry} (h : t.Represents es) (hp : es.Perm es') :
    t.Represents es' :=
  represents_iff.mpr ((represents_iff.mp h).perm hp)

/-- **An insertion keeps the invariant.** -/
theorem Represents.insert {es : List Entry} (h : t.Represents es) {e : Entry}
    (hfresh : ∀ x ∈ es, x.key ≠ e.key) (hne : e.key ≠ 0)
    (he : IntCodec.InRange β e.key ∧ IntCodec.InRange β e.value)
    (hn : IntCodec.InRange β (t.insert e).numOfNodes_) : (t.insert e).Represents (e :: es) := by
  have hlive : live [e] = [e] := live_eq_self (by simpa using hne)
  have hby := (represents_iff.mp h).insert (fun _ _ _ _ _ => Increasing.mono) ?_
    (fun lo hi hholds hlo hhi => ?_) he hn
  · rw [hlive] at hby
    exact represents_iff.mpr hby
  · rw [hlive]
    exact ⟨List.pairwise_singleton _ _, by simp⟩
  · obtain ⟨hb1, hb2, hleaf⟩ := hholds.dest hlo hhi
    refine hleaf.takes hb1 hb2 (fun x hx => hfresh x (hholds.mem_of_mem_readLeaf hx)) ?_
      hholds.geometry.splitIndex_bounds.1
    intro l x r happ _ _
    -- neither the entries of the leaf nor the new one have the key `0`
    have hx : x ∈ (t.readLeaf (t.getPath e.key).dest).entries ++ [e] := by
      rw [← (sortEntries_perm _).mem_iff, happ]
      simp
    rcases List.mem_append.mp hx with hx | hx
    · exact key_ne_zero_of_mem_readLeaf hx
    · rw [List.mem_singleton.mp hx]
      exact hne

/-- What a session asks of its entries: distinct keys, not zero, that fit into the file. -/
structure Insertable (β : Type) [IntCodec β] (es : List Entry) : Prop where
  nodup : (es.map Entry.key).Nodup
  ne_zero : ∀ e ∈ es, e.key ≠ 0
  inRange : Entry.AllInRange β es

instance [DecidablePred (IntCodec.InRange β)] (es : List Entry) : Decidable (Insertable β es) :=
  decidable_of_iff ((es.map Entry.key).Nodup ∧ (∀ e ∈ es, e.key ≠ 0) ∧ Entry.AllInRange β es)
    ⟨fun ⟨h₁, h₂, h₃⟩ => ⟨h₁, h₂, h₃⟩, fun ⟨h₁, h₂, h₃⟩ => ⟨h₁, h₂, h₃⟩⟩

theorem Insertable.of_append {es es' : List Entry} (h : Insertable β (es ++ es')) :
    Insertable β es := by
  refine ⟨?_, fun x hx => h.ne_zero x (List.mem_append_left _ hx),
    fun x hx => h.inRange x (List.mem_append_left _ hx)⟩
  have hnodup := h.nodup
  rw [List.map_append] at hnodup
  exact (List.nodup_append.mp hnodup).1

theorem numOfNodes_le_insertAll (t : BPlusTree β) (es : List Entry) :
    t.numOfNodes_ ≤ (t.insertAll es).numOfNodes_ := by
  induction es generalizing t with
  | nil => exact le_rfl
  | cons e es ih => exact (numOfNodes_le_insert t e).trans (ih (t.insert e))

theorem insertAll_append (t : BPlusTree β) (es es' : List Entry) :
    t.insertAll (es ++ es') = (t.insertAll es).insertAll es' :=
  List.foldl_append ..

theorem insertAll_concat (t : BPlusTree β) (es : List Entry) (e : Entry) :
    t.insertAll (es ++ [e]) = (t.insertAll es).insert e :=
  List.foldl_concat ..

/-- The numbers of the blocks fit into the file throughout a session, if they do at its end. -/
theorem inRange_insertAll {es es' : List Entry} (hn : 0 ≤ t.numOfNodes_)
    (hfit : IntCodec.InRange β (t.insertAll (es ++ es')).numOfNodes_) :
    IntCodec.InRange β (t.insertAll es).numOfNodes_ := by
  rw [insertAll_append] at hfit
  exact IntCodec.inRange_of_le (hn.trans (numOfNodes_le_insertAll t es))
    (numOfNodes_le_insertAll (t.insertAll es) es') hfit

/-- **A session keeps the invariant**: the index holds what it held and the new entries. -/
theorem represents_insertAll {old es : List Entry} (h : t.Represents old)
    (hes : Insertable β (old ++ es)) (hn : 0 ≤ t.numOfNodes_)
    (hrange : IntCodec.InRange β (t.insertAll es).numOfNodes_) :
    (t.insertAll es).Represents (old ++ es) := by
  induction es generalizing t old with
  | nil =>
    rw [List.append_nil]
    exact h
  | cons e es ih =>
    have hstep : (t.insert e).Represents (old ++ [e]) := by
      have hmem : e ∈ old ++ e :: es := by simp
      refine (h.insert ?_ (hes.ne_zero e hmem) (hes.inRange e hmem) ?_).perm
        (List.perm_append_singleton e old).symm
      · intro x hx heq
        have hnodup := hes.nodup
        rw [List.map_append, List.nodup_append] at hnodup
        exact hnodup.2.2 x.key (List.mem_map_of_mem hx) e.key (by simp) heq
      · refine IntCodec.inRange_of_le (hn.trans (numOfNodes_le_insert t e)) ?_ hrange
        exact numOfNodes_le_insertAll (t.insert e) es
    have happ : old ++ e :: es = old ++ [e] ++ es := by simp
    rw [happ] at hes ⊢
    exact ih hstep hes (hn.trans (numOfNodes_le_insert t e)) hrange

/-! ### Opening an index -/

/-- The header of a freshly created index file. -/
theorem createIndexFile_header {bs : ℤ} (hbs : IntCodec.InRange β bs) :
    (createIndexFile bs : BinFile β).readInt 0 = bs ∧
      (createIndexFile bs : BinFile β).readInt UNIT = 0 ∧
      (createIndexFile bs : BinFile β).readInt (2 * UNIT) = 0 ∧
      (createIndexFile bs : BinFile β).size = HEADER_SIZE := by
  have hrange : ∀ v ∈ [bs, 0, 0], IntCodec.InRange β v := by
    intro v hv
    rcases List.mem_cons.mp hv with rfl | hv
    · exact hbs
    · obtain rfl : v = 0 := by simpa using hv
      exact IntCodec.inRange_zero
  have hread := BinFile.readInt_writeInts_getElem (BinFile.empty : BinFile β) 0 [bs, 0, 0] hrange
  refine ⟨hread 0 (by simp), hread 1 (by simp), hread 2 (by simp), ?_⟩
  rw [createIndexFile, BinFile.size_writeInts _ _ _ (by simp)]
  rfl

/-- What `getMetadata` makes of a file it accepts. -/
theorem getMetadata_eq_ok {f : BinFile β} (h : getMetadata f = .ok t) :
    t.Geometry ∧ t.blockSize_ = f.readInt 0 ∧ t.rootBID_ = f.readInt UNIT ∧
      t.depth_ = f.readInt (2 * UNIT) ∧
      t.numOfNodes_ = (f.size - HEADER_SIZE).tdiv (f.readInt 0) ∧ t.binFile_ = f := by
  unfold getMetadata at h
  dsimp only at h
  split_ifs at h with hcap
  obtain rfl := Except.ok.inj h
  exact ⟨⟨rfl, Int.lt_iff_add_one_le.mp (not_le.mp hcap)⟩, rfl, rfl, rfl, rfl, rfl⟩

/-- A freshly created index has no block. -/
theorem fresh_createIndexFile {bs : ℤ} (hbs : IntCodec.InRange β bs)
    (h : getMetadata (createIndexFile bs) = .ok t) :
    t.Geometry ∧ t.numOfNodes_ = 0 ∧ t.rootBID_ = 0 ∧ t.depth_ = 0 := by
  obtain ⟨g, hbs', hroot, hdepth, hnum, hfile⟩ := getMetadata_eq_ok h
  obtain ⟨h0, h1, h2, hsize⟩ := createIndexFile_header hbs
  refine ⟨g, ?_, hroot.trans h1, hdepth.trans h2⟩
  rw [hnum, hsize, sub_self, Int.zero_tdiv]

/-- A freshly created index is empty. -/
theorem represents_createIndexFile {bs : ℤ} (hbs : IntCodec.InRange β bs)
    (h : getMetadata (createIndexFile bs) = .ok t) : t.Represents [] := by
  obtain ⟨g, hnum, hroot, hdepth⟩ := fresh_createIndexFile hbs h
  exact .empty g hnum hroot hdepth rfl

/-- A session on a fresh index. -/
theorem represents_session {bs : ℤ} (hbs : IntCodec.InRange β bs)
    (hopen : getMetadata (createIndexFile bs) = .ok t) {es : List Entry} (hes : Insertable β es)
    (hfit : IntCodec.InRange β (t.insertAll es).numOfNodes_) : (t.insertAll es).Represents es := by
  have h := represents_createIndexFile hbs hopen
  exact represents_insertAll h hes h.numOfNodes_nonneg hfit

end BPlusTree

end Laboratory.IndexFile
