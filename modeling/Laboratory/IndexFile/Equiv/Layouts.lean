import Laboratory.IndexFile.Equiv.LeafChain

/-!
# Blocks are read as they were written

`layouts_insertAll`: in every state of a session a path goes through internal nodes to a leaf, and
has `depth_ + 1` blocks; an insertion keeps the layout of every block and its distance to the
leaves; and `propagate` is called on the parent of the block that was just split.  `propagateCalls`
are the calls of `propagate` in an insertion.
-/

namespace Laboratory.IndexFile

/-- A call of `propagate`: the index at that time, the promoted entry, the block that it was split
off from, and the block that is to take it in. -/
structure PropagateCall (β : Type) where
  tree : BPlusTree β
  promoted : Entry
  split : ℤ
  blockId : ℤ

/-- The call is on the parent of the block that was just split, and brings the block that was
allocated for it. -/
def PropagateCall.OnParent {β : Type} [IntCodec β] (call : PropagateCall β) : Prop :=
  call.split ∈ (call.tree.readInternal call.blockId).children ∧
    call.promoted.value = call.tree.numOfNodes_ ∧
      call.tree.binFile_.layout (call.tree.blockOffset call.blockId) = some .internal

namespace BPlusTree

variable {β : Type} [IntCodec β] {t t' : BPlusTree β} {height : ℤ → ℕ} {ls : List ℤ}
  {es : List Entry} {b : ℤ} {d : ℕ}

/-- The calls of `propagate` in the loop of `insert`.  A block that `propagate` splits is the one
that was just split for the next call. -/
def loopCalls (t : BPlusTree β) (promoted : Entry) (split : ℤ) : List ℤ → List (PropagateCall β)
  | [] => []
  | blockId :: rest =>
    if isNoSplit promoted then []
    else ⟨t, promoted, split, blockId⟩ ::
      (t.propagate promoted blockId).1.loopCalls (t.propagate promoted blockId).2 blockId rest

/-- The calls of `propagate` in an insertion. -/
def propagateCalls (t : BPlusTree β) (entry : Entry) : List (PropagateCall β) :=
  if t.numOfNodes_ = 0 ∨ t.numOfNodes_ = 1 then []
  else
    let path := t.getPath entry.key
    let r := t.insertLeaf entry (path.nodes.getLastD 0)
    r.1.loopCalls r.2 (path.nodes.getLastD 0) path.nodes.dropLast.reverse

/-- The calls on a longer path. -/
theorem loopCalls_append (t : BPlusTree β) (p : Entry) (split : ℤ) (l : List ℤ) (b : ℤ) :
    t.loopCalls p split (l ++ [b]) =
      t.loopCalls p split l ++
        if isNoSplit (t.propagateLoop p l).2 then []
        else [⟨(t.propagateLoop p l).1, (t.propagateLoop p l).2, l.getLastD split, b⟩] := by
  induction l generalizing t p split with
  | nil =>
    rw [List.nil_append, loopCalls, loopCalls, propagateLoop, List.nil_append]
    rfl
  | cons x l ih =>
    rw [List.cons_append, loopCalls, loopCalls, propagateLoop]
    by_cases h : isNoSplit p
    · simp only [if_pos h, List.nil_append]
    · simp only [if_neg h, ih, List.cons_append, List.getLastD_cons]

/-- The loop ends as its last call does. -/
theorem propagateLoop_calls (t : BPlusTree β) (p : Entry) (split : ℤ) (l : List ℤ) :
    t.propagateLoop p l = ((t.loopCalls p split l).getLast?.map fun call =>
      call.tree.propagate call.promoted call.blockId).getD (t, p) := by
  induction l using List.reverseRecOn with
  | nil => rfl
  | append_singleton l b ih =>
    rw [propagateLoop_append, loopCalls_append]
    split_ifs with h
    · rw [List.append_nil, ih]
    · rw [List.getLast?_concat]
      rfl

/-- The first block of a path is where it starts. -/
theorem getLastD_reverse_dropLast (t : BPlusTree β) (k : ℤ) (d : ℕ) (b : ℤ) :
    (t.getPathFrom k d b).nodes.dropLast.reverse.getLastD ((t.getPathFrom k d b).nodes.getLastD 0) =
      b := by
  cases d with
  | zero => rfl
  | succ d =>
    obtain ⟨x, xs, hxs⟩ := List.exists_cons_of_ne_nil (getPathFrom_nodes_ne_nil t k d
      (descend k (t.readInternal b).firstChild (t.readInternal b).separators))
    rw [getPathFrom, hxs, List.dropLast_cons_of_ne_nil (List.cons_ne_nil _ _), List.reverse_cons,
      List.getLastD_concat]

/-- **The calls below a block** are on parents, by induction on the depth. -/
theorem Leveled.loopCalls (h : t.Leveled height) {e : Entry}
    (he : IntCodec.InRange β e.key ∧ IntCodec.InRange β e.value)
    (hb : 1 ≤ b ∧ b ≤ t.numOfNodes_) (hd : height b = d) (hroot : d ≤ height t.rootBID_)
    (hfit : IntCodec.InRange β (t.insertBelow e d b).1.numOfNodes_) :
    ∀ call ∈ (t.insertLeaf e ((t.getPathFrom e.key d b).nodes.getLastD 0)).1.loopCalls
        (t.insertLeaf e ((t.getPathFrom e.key d b).nodes.getLastD 0)).2
        ((t.getPathFrom e.key d b).nodes.getLastD 0)
        (t.getPathFrom e.key d b).nodes.dropLast.reverse, call.OnParent := by
  induction d generalizing b with
  | zero =>
    intro call hcall
    cases hcall
  | succ d ih =>
    have hmem := descend_mem e.key (t.readInternal b)
    obtain ⟨hc, hcd⟩ := h.child b hb.1 hb.2 d hd _ hmem
    have hn : 0 ≤ t.numOfNodes_ := by omega
    have hinner := inRange_insertBelow hn hfit
    have hbelow := ih hc hcd (Nat.le_of_succ_le hroot) hinner
    -- the root is above the child, so the loop computes the recursion there
    have hloop := propagateLoop_path (t := t) (e := e) (d := d) (b := descend e.key
      (t.readInternal b).firstChild (t.readInternal b).separators) (fun hmem => by
        have := h.treeIds hc hcd hmem
        omega)
    have hlast := getLastD_reverse_dropLast t e.key d
      (descend e.key (t.readInternal b).firstChild (t.readInternal b).separators)
    obtain ⟨height₁, hgrown⟩ := h.insertBelow he hc hcd hinner
    have hstep := hgrown.stepped
    intro call hcall
    rw [getPathFrom] at hcall
    dsimp only at hcall
    obtain ⟨x, xs, hxs⟩ := List.exists_cons_of_ne_nil (getPathFrom_nodes_ne_nil t e.key d
      (descend e.key (t.readInternal b).firstChild (t.readInternal b).separators))
    have hpath : ∀ j ∈ (t.getPathFrom e.key d (descend e.key (t.readInternal b).firstChild
        (t.readInternal b).separators)).nodes, height j ≤ d :=
      fun j hj => h.height_le_of_mem_path hc hcd hj
    rw [hxs] at hcall hbelow hloop hlast
    have hlast' : (b :: x :: xs).getLastD 0 = (x :: xs).getLastD 0 := rfl
    rw [List.dropLast_cons_of_ne_nil (List.cons_ne_nil _ _), List.reverse_cons, hlast',
      loopCalls_append, hloop, hlast, List.mem_append] at hcall
    rcases hcall with hcall | hcall
    · exact hbelow call hcall
    · split_ifs at hcall with hno
      · cases hcall
      · rw [List.mem_singleton.mp hcall]
        obtain ⟨hlt, hval, -⟩ := hstep.promoted.resolve_left
          fun hp => hno ((hstep.noSplit hn).mpr hp)
        -- the node itself was not written yet
        have hsame := hstep.frame b hb.2 fun hbp => by
          have := hpath b hbp
          omega
        refine ⟨?_, hval, ?_⟩
        · show _ ∈ ((t.insertBelow e d _).1.readInternal b).children
          rw [hsame.internal]
          exact hmem
        · show (t.insertBelow e d _).1.binFile_.layout ((t.insertBelow e d _).1.blockOffset b) = _
          rw [hsame.layout, h.layout b hb.1 hb.2, hd]
          rfl

theorem Linked.propagateCalls (h : t.Linked height ls es) {e : Entry}
    (he : IntCodec.InRange β e.key ∧ IntCodec.InRange β e.value)
    (hfit : IntCodec.InRange β (t.insert e).numOfNodes_) :
    ∀ call ∈ t.propagateCalls e, call.OnParent := by
  intro call hcall
  unfold BPlusTree.propagateCalls at hcall
  split_ifs at hcall with hn
  · cases hcall
  · rw [h.getPath_eq] at hcall
    exact h.leveled.loopCalls he h.leveled.root h.leveled.height_root h.leveled.height_root.ge
      (h.inRange_growRoot hfit).1 call hcall

/-- **Paths go through internal nodes to a leaf.** -/
theorem Linked.path (h : t.Linked height ls es) (key : ℤ) :
    ((t.getPath key).nodes.length : ℤ) = t.depth_ + 1 ∧
      (∀ b ∈ (t.getPath key).nodes, 1 ≤ b ∧ b ≤ t.numOfNodes_) ∧
      (∀ b ∈ (t.getPath key).nodes.take t.depth_.toNat,
        t.binFile_.layout (t.blockOffset b) = some .internal) ∧
      ∃ b, (t.getPath key).nodes.getLast? = some b ∧
        t.binFile_.layout (t.blockOffset b) = some .leaf := by
  have hdepth := h.leveled.depth_nonneg
  obtain ⟨hheights, hids⟩ := h.leveled.path (k := key) h.leveled.root h.leveled.height_root
  rw [h.getPath_eq]
  generalize (t.getPathFrom key t.depth_.toNat t.rootBID_).nodes = path at *
  have hlen : path.length = t.depth_.toNat + 1 := by
    have hlen := congrArg List.length hheights
    simpa using hlen
  -- the `i`-th block of the path has the height `depth_ - i`
  have hheight : ∀ i b, path[i]? = some b → height b = t.depth_.toNat - i := by
    intro i b hi
    have hmap : (path.map height)[i]? = some (height b) := by rw [List.getElem?_map, hi]; rfl
    obtain ⟨hlt, -⟩ := List.getElem?_eq_some_iff.mp hi
    rw [hheights, List.getElem?_reverse (by simpa [hlen] using hlt), List.length_range,
      List.getElem?_range (by omega)] at hmap
    have := Option.some.inj hmap
    omega
  refine ⟨by omega, hids, fun b hb => ?_, ?_⟩
  · obtain ⟨i, hi⟩ := List.mem_iff_getElem?.mp hb
    rw [List.getElem?_take] at hi
    split_ifs at hi with hlt
    obtain ⟨h1, h2⟩ := hids b (List.mem_iff_getElem?.mpr ⟨i, hi⟩)
    rw [h.leveled.layout b h1 h2, layoutAt, if_neg (by rw [hheight i b hi]; omega)]
  · have hlast : path[t.depth_.toNat]? = some (path.get ⟨t.depth_.toNat, by omega⟩) :=
      List.getElem?_eq_getElem _
    obtain ⟨h1, h2⟩ := hids _ (List.mem_iff_getElem?.mpr ⟨_, hlast⟩)
    refine ⟨_, by rw [List.getLast?_eq_getElem?, hlen]; exact hlast, ?_⟩
    rw [h.leveled.layout _ h1 h2, layoutAt, if_pos (by rw [hheight _ _ hlast]; omega)]

/-- **Blocks are read as they were written**, whatever is inserted: a path goes through internal
nodes to a leaf, an insertion keeps the layout of every block and its distance to the leaves, and
`propagate` is called on the parent of the block that was just split. -/
theorem layouts_insertAll {bs : ℤ} (hbs : IntCodec.InRange β bs)
    (hopen : getMetadata (createIndexFile bs) = .ok t) (hes : Entry.AllInRange β es)
    (hfit : IntCodec.InRange β (t.insertAll es).numOfNodes_) :
    let s := t.insertAll es
    (1 ≤ s.numOfNodes_ → ∀ key,
      ((s.getPath key).nodes.length : ℤ) = s.depth_ + 1 ∧
        (∀ b ∈ (s.getPath key).nodes, 1 ≤ b ∧ b ≤ s.numOfNodes_) ∧
        (∀ b ∈ (s.getPath key).nodes.take s.depth_.toNat,
          s.binFile_.layout (s.blockOffset b) = some .internal) ∧
        ∃ b, (s.getPath key).nodes.getLast? = some b ∧
          s.binFile_.layout (s.blockOffset b) = some .leaf) ∧
    (∀ b, 1 ≤ b → b ≤ s.numOfNodes_ → ∃ d, s.AtHeight d b) ∧
    ∀ e, IntCodec.InRange β e.key ∧ IntCodec.InRange β e.value →
        IntCodec.InRange β (s.insert e).numOfNodes_ →
      (∀ b, 1 ≤ b → b ≤ s.numOfNodes_ →
        (s.insert e).binFile_.layout ((s.insert e).blockOffset b) =
          s.binFile_.layout (s.blockOffset b) ∧
        ∀ d, s.AtHeight d b ↔ (s.insert e).AtHeight d b) ∧
      ∀ call ∈ s.propagateCalls e, call.OnParent := by
  intro s
  by_cases hnil : es = []
  · subst hnil
    obtain ⟨-, hn, -⟩ := fresh_createIndexFile hbs hopen
    change t.numOfNodes_ = 0 at hn
    have hs : s = t := rfl
    rw [hs]
    refine ⟨fun hone => by omega, fun b h1 h2 => by omega, fun e _ _ =>
      ⟨fun b h1 h2 => by omega, ?_⟩⟩
    intro call hcall
    rw [propagateCalls, if_pos (.inl hn)] at hcall
    cases hcall
  · obtain ⟨height, ls, h⟩ := linked_insertAll hbs hopen hes hfit hnil
    refine ⟨fun _ => h.path, fun b h1 h2 => ⟨height b, (h.leveled.atHeight_iff ⟨h1, h2⟩).mpr rfl⟩,
      fun e he hfit => ⟨fun b h1 h2 => ?_, h.propagateCalls he hfit⟩⟩
    obtain ⟨height', ls', h', hle, hkeeps⟩ := h.insert he hfit
    have hb : height' b = height b := hkeeps b h2
    refine ⟨?_, fun d => ?_⟩
    · rw [h'.leveled.layout b h1 (h2.trans hle), h.leveled.layout b h1 h2, hb]
    · rw [h.leveled.atHeight_iff ⟨h1, h2⟩, h'.leveled.atHeight_iff ⟨h1, h2.trans hle⟩, hb]

/-- Two entries per node: the third insertion has split the root leaf, and block `1` keeps its
distance to the leaves. -/
theorem layouts_insertAll_split :
    ∃ d, (insertAll ⟨20, 0, 0, 2, 0, (createIndexFile 20 : BinFile UInt8)⟩
      [⟨3, 30⟩, ⟨3, 10⟩, ⟨0, 20⟩]).AtHeight d 1 :=
  (layouts_insertAll (by decide) (show getMetadata (createIndexFile 20) = .ok _ from rfl)
    (by decide) (by decide)).2.1 1 le_rfl (by decide)

end BPlusTree

end Laboratory.IndexFile
