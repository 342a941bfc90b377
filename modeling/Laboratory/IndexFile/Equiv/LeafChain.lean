import Laboratory.IndexFile.ByteCodec
import Laboratory.IndexFile.Equiv.Levels
import Laboratory.IndexFile.Equiv.Session
import Mathlib.Data.List.Induction

/-!
# The chain of the leaves

`Linked`: following `next` from block `1` visits every leaf once and ends at `0`, and the entries
met are those that were inserted.  An insertion with any key writes one leaf of the chain, and links
the leaf that is split off behind it (`LeafWritten.linked`), so the chain never loses a leaf
(`Linked.insert`).  `leafChain_insertAll` is the result for a session.
-/

namespace Laboratory.IndexFile

namespace BPlusTree

variable {β : Type} [IntCodec β] {t t' : BPlusTree β} {height height' : ℤ → ℕ} {ls : List ℤ}
  {es : List Entry} {b : ℤ}

/-- **The invariant of the leaf chain**: `ls` are the leaves, as `next` links them. -/
structure Linked (t : BPlusTree β) (height : ℤ → ℕ) (ls : List ℤ) (es : List Entry) : Prop where
  leveled : t.Leveled height
  single : t.depth_.toNat = 0 ↔ t.numOfNodes_ = 1
  chain : t.Chain 1 ls 0
  nodup : ls.Nodup
  mem_iff : ∀ b, b ∈ ls ↔ (1 ≤ b ∧ b ≤ t.numOfNodes_) ∧ height b = 0
  entries : (t.leafEntries ls).Perm (live es)

/-- **The chain after a leaf was written**: a leaf that is split off is linked in behind it. -/
theorem LeafWritten.linked {e : Entry} {r : BPlusTree β × Entry}
    (hr : LeafWritten t b (t.readLeaf b).next (sortEntries ((t.readLeaf b).entries ++ [e])) r)
    (hchain : t.Chain 1 ls 0) (hnodup : ls.Nodup) (hb : b ∈ ls)
    (hle : ∀ l ∈ ls, l ≤ t.numOfNodes_) :
    ∃ ls', r.1.Chain 1 ls' 0 ∧ ls'.Nodup ∧
      (∀ j, j ∈ ls' ↔ j ∈ ls ∨ t.numOfNodes_ < j ∧ j ≤ r.1.numOfNodes_) ∧
        (r.1.leafEntries ls').Perm (live [e] ++ t.leafEntries ls) := by
  obtain ⟨A, B, rfl⟩ := List.append_of_mem hb
  obtain ⟨m, hA, rfl, hB⟩ := chain_append.mp hchain
  have hperm : (live (sortEntries ((t.readLeaf m).entries ++ [e]))).Perm
      (live [e] ++ (t.readLeaf m).entries) := by
    refine (live_perm (sortEntries_perm _)).trans ?_
    rw [live_append, live_readLeaf]
    exact List.perm_append_comm
  -- the other leaves of the chain are other blocks, and are not written
  have hother : ∀ l ∈ A ++ B, l ≠ m := by
    intro l hl hlm
    obtain ⟨-, hmB, hAB⟩ := List.nodup_append.mp hnodup
    rw [hlm, List.mem_append] at hl
    rcases hl with hl | hl
    · exact hAB m hl m (List.mem_cons_self ..) rfl
    · exact (List.nodup_cons.mp hmB).1 hl
  have hsub : ∀ l ∈ A ++ B, l ≤ t.numOfNodes_ := by
    intro l hl
    refine hle l ?_
    rw [List.mem_append, List.mem_cons]
    rw [List.mem_append] at hl
    tauto
  cases hr with
  | @kept t' _ hw hnum hread _ =>
    have hsame : ∀ l ∈ A ++ B, SameBlock t t' l :=
      fun l hl => hw.frame l (hsub l hl) (by simpa using hother l hl)
    refine ⟨A ++ m :: B, chain_append.mpr ⟨m, ?_, rfl, ?_⟩, hnodup, fun j => ?_, ?_⟩
    · exact chain_congr (fun l hl => hsame l (List.mem_append_left _ hl)) hA
    · rw [hread]
      exact chain_congr (fun l hl => hsame l (List.mem_append_right _ hl)) hB
    · simp only [hnum]
      constructor
      · exact .inl
      · rintro (hj | hj)
        · exact hj
        · omega
    · rw [leafEntries_append_cons, leafEntries_append_cons, hread,
        leafEntries_congr fun l hl => hsame l (List.mem_append_left _ hl),
        leafEntries_congr fun l hl => hsame l (List.mem_append_right _ hl)]
      dsimp only
      grind
  | @split t' l r x happ _ _ hw hnum hleft hright _ =>
    have hsame : ∀ l ∈ A ++ B, SameBlock t t' l := by
      intro l hl
      have hlt := hsub l hl
      refine hw.frame l hlt ?_
      rw [List.mem_cons, List.mem_singleton, not_or]
      exact ⟨hother l hl, by omega⟩
    -- the right half keeps the old `next`, and the left half points to it
    rw [happ, live_append] at hperm
    refine ⟨A ++ m :: (t.numOfNodes_ + 1) :: B, chain_append.mpr ⟨m, ?_, rfl, ?_⟩, ?_,
      fun j => ?_, ?_⟩
    · exact chain_congr (fun l hl => hsame l (List.mem_append_left _ hl)) hA
    · rw [hleft]
      refine ⟨rfl, ?_⟩
      rw [hright]
      exact chain_congr (fun l hl => hsame l (List.mem_append_right _ hl)) hB
    · -- the new leaf is none of the old ones
      have hnew : t.numOfNodes_ + 1 ∉ A ++ m :: B := by
        intro hmem
        have := hle _ hmem
        omega
      grind
    · simp only [hnum, List.mem_append, List.mem_cons]
      constructor
      · rintro (hj | rfl | rfl | hj)
        · exact .inl (.inl hj)
        · exact .inl (.inr (.inl rfl))
        · exact .inr ⟨by omega, le_rfl⟩
        · exact .inl (.inr (.inr hj))
      · rintro ((hj | rfl | hj) | hj)
        · exact .inl hj
        · exact .inr (.inl rfl)
        · exact .inr (.inr (.inr hj))
        · exact .inr (.inr (.inl (by omega)))
    · have hcons :
          t'.leafEntries ((t.numOfNodes_ + 1) :: B) = live (x :: r) ++ t'.leafEntries B := by
        rw [leafEntries, List.flatMap_cons, hright]
        rfl
      rw [leafEntries_append_cons, leafEntries_append_cons, hleft, hcons,
        leafEntries_congr fun l hl => hsame l (List.mem_append_left _ hl),
        leafEntries_congr fun l hl => hsame l (List.mem_append_right _ hl)]
      dsimp only
      grind

/-! ### The invariant of a session -/

namespace Linked

theorem one_le_numOfNodes (h : t.Linked height ls es) : 1 ≤ t.numOfNodes_ :=
  h.leveled.root.1.trans h.leveled.root.2

/-- A single node is the only leaf, and the chain ends there. -/
theorem next_eq_zero (h : t.Linked height ls es) (hone : t.numOfNodes_ = 1) :
    (t.readLeaf t.rootBID_).next = 0 := by
  have hroot := h.leveled.root
  have hall : ∀ l ∈ ls, l = 1 := by
    intro l hl
    obtain ⟨⟨h1, h2⟩, -⟩ := (h.mem_iff l).mp hl
    omega
  have hchain := h.chain
  have hnodup := h.nodup
  rw [show t.rootBID_ = 1 by omega]
  match ls, hchain, hnodup, hall with
  | [], hchain, _, _ => exact absurd hchain one_ne_zero
  | [l], hchain, _, _ =>
    obtain ⟨rfl, hnext⟩ := hchain
    exact hnext
  | l :: l' :: ls, _, hnodup, hall =>
    have hl := hall l (by simp)
    have hl' := hall l' (by simp)
    simp [hl, hl'] at hnodup

theorem not_mem_below (h : t.Linked height ls es) {d : ℕ} (hd : t.depth_.toNat = d + 1) :
    t.rootBID_ ∉ (t.readInternal t.rootBID_).children.flatMap (t.treeIds d) := by
  intro hmem
  have hroot := h.leveled.height_root
  obtain ⟨c, hc, hmem⟩ := List.mem_flatMap.mp hmem
  obtain ⟨hc, hcd⟩ := h.leveled.child _ h.leveled.root.1 h.leveled.root.2 d (hroot.trans hd) c hc
  have hle := h.leveled.treeIds hc hcd hmem
  omega

theorem insert_eq (h : t.Linked height ls es) (e : Entry) :
    t.insert e = ((t.insertBelow e t.depth_.toNat t.rootBID_).1.growRoot
      (t.insertBelow e t.depth_.toNat t.rootBID_).2).writeMetadata :=
  insert_eq_growRoot h.one_le_numOfNodes h.leveled.depth_nonneg h.single h.next_eq_zero
    (fun _ => h.not_mem_below) e

theorem getPath_eq (h : t.Linked height ls es) (k : ℤ) :
    t.getPath k = t.getPathFrom k t.depth_.toNat t.rootBID_ := by
  rw [getPath, if_neg (not_lt.mpr h.leveled.depth_nonneg)]

theorem dest_mem (h : t.Linked height ls es) (k : ℤ) : (t.getPath k).dest ∈ ls := by
  rw [h.getPath_eq, h.mem_iff]
  exact h.leveled.dest h.leveled.root h.leveled.height_root

end Linked

/-- The numbers of the blocks fit into the file before the root is looked at, if they do after. -/
theorem Linked.inRange_growRoot (h : t.Linked height ls es) {e : Entry}
    (hfit : IntCodec.InRange β (t.insert e).numOfNodes_) :
    IntCodec.InRange β (t.insertBelow e t.depth_.toNat t.rootBID_).1.numOfNodes_ ∧
      IntCodec.InRange β ((t.insertBelow e t.depth_.toNat t.rootBID_).1.growRoot
        (t.insertBelow e t.depth_.toNat t.rootBID_).2).numOfNodes_ := by
  have hone := h.one_le_numOfNodes
  have hle := numOfNodes_le_insertBelow t e t.depth_.toNat t.rootBID_
  rw [h.insert_eq] at hfit
  exact ⟨IntCodec.inRange_of_le (by omega) (numOfNodes_le_growRoot ..) hfit, hfit⟩

/-- **An insertion keeps the chain and the heights.** -/
theorem Linked.insert (h : t.Linked height ls es) {e : Entry}
    (he : IntCodec.InRange β e.key ∧ IntCodec.InRange β e.value)
    (hfit : IntCodec.InRange β (t.insert e).numOfNodes_) :
    ∃ height' ls', (t.insert e).Linked height' ls' (es ++ [e]) ∧
      t.numOfNodes_ ≤ (t.insert e).numOfNodes_ ∧ ∀ j ≤ t.numOfNodes_, height' j = height j := by
  have hone := h.one_le_numOfNodes
  have hmem := h.dest_mem e.key
  obtain ⟨hdest, hdest0⟩ := (h.mem_iff _).mp hmem
  obtain ⟨hbelow, hgrows⟩ := h.inRange_growRoot hfit
  obtain ⟨height₁, hgrown⟩ := h.leveled.insertBelow he h.leveled.root h.leveled.height_root hbelow
  have hstep := hgrown.stepped
  obtain ⟨height₂, hlev, hroot, hold, hnew⟩ :=
    hstep.growRoot h.leveled (inRange_key_insertBelow t he.1 ..) hgrows
  have hle := hstep.numOfNodes_le
  have hle₁ := hgrown.insertLeaf_le
  have hleafFits : IntCodec.InRange β (t.insertLeaf e (t.getPath e.key).dest).1.numOfNodes_ := by
    have hnonneg := numOfNodes_le_insertLeaf t e (t.getPath e.key).dest
    rw [← h.getPath_eq] at hle₁
    exact IntCodec.inRange_of_le (by omega) hle₁ hbelow
  have hwritten := insertLeaf_written h.leveled.geometry hdest.2 he hleafFits
  obtain ⟨ls', hchain, hnodup, hmem_iff, hentries⟩ := hwritten.linked h.chain h.nodup hmem
    fun l hl => ((h.mem_iff l).mp hl).1.2
  have hleaf := hgrown.leaf
  have hnewleaf := hgrown.new_leaf
  -- a single leaf that was not split is a single leaf again
  have hzero : t.depth_.toNat = 0 → (t.insertBelow e t.depth_.toNat t.rootBID_).2 = NO_SPLIT →
      (t.insertBelow e t.depth_.toNat t.rootBID_).1.numOfNodes_ = t.numOfNodes_ := by
    intro hd hno
    rw [hd] at hno ⊢
    rw [h.getPath_eq, hd] at hwritten
    change LeafWritten t _ _ _ (t.insertBelow e 0 t.rootBID_) at hwritten
    generalize t.insertBelow e 0 t.rootBID_ = r at hno hwritten
    cases hwritten with
    | kept _ _ hnum => exact hnum
    | split => exact absurd (congrArg Entry.value hno) (by simp only [NO_SPLIT]; omega)
  rw [← h.getPath_eq] at hle₁ hleaf hnewleaf
  rw [h.insert_eq]
  generalize t.insertBelow e t.depth_.toNat t.rootBID_ = r at *
  generalize t.insertLeaf e (t.getPath e.key).dest = r₁ at *
  have hgrow : r.1.numOfNodes_ ≤ (r.1.growRoot r.2).numOfNodes_ := numOfNodes_le_growRoot ..
  -- nothing above the leaves writes a leaf again
  have hsame : ∀ j ∈ ls', SameBlock r₁.1 (r.1.growRoot r.2).writeMetadata j := by
    intro j hj
    have hj' : (1 ≤ j ∧ j ≤ r.1.numOfNodes_) ∧ height₁ j = 0 := by
      rcases (hmem_iff j).mp hj with hj | hj
      · obtain ⟨hj, hj0⟩ := (h.mem_iff j).mp hj
        rw [hstep.keeps j hj.2]
        exact ⟨⟨hj.1, hj.2.trans hle⟩, hj0⟩
      · exact ⟨⟨by omega, hj.2.trans hle₁⟩, hnewleaf j hj.1 hj.2⟩
    exact ((hleaf j hj'.1.1 hj'.1.2 hj'.2).2.trans (hold j hj'.1.2).2).trans
      (sameBlock_writeMetadata hlev.geometry hj'.1.1)
  refine ⟨height₂, ls', ⟨hlev.writeMetadata, ?_, chain_congr hsame hchain, hnodup, fun j => ?_, ?_⟩,
    hle.trans hgrow, fun j hj => by rw [(hold j (hj.trans hle)).1, hstep.keeps j hj]⟩
  · show (r.1.growRoot r.2).depth_.toNat = 0 ↔ (r.1.growRoot r.2).numOfNodes_ = 1
    have hdepth := h.leveled.depth_nonneg
    have hsingle := h.single
    rcases hroot with ⟨hno, hr⟩ | ⟨hd, hnum⟩
    · rw [hr, hstep.depth_eq]
      have := hzero
      constructor
      · intro hd
        rw [hzero hd hno]
        exact hsingle.mp hd
      · intro hn
        exact hsingle.mpr (by omega)
    · omega
  · show j ∈ ls' ↔ (1 ≤ j ∧ j ≤ (r.1.growRoot r.2).numOfNodes_) ∧ height₂ j = 0
    rw [hmem_iff, h.mem_iff]
    constructor
    · rintro (⟨hj, hj0⟩ | hj)
      · have hjr := hj.2.trans hle
        rw [(hold j hjr).1, hstep.keeps j hj.2]
        exact ⟨⟨hj.1, hjr.trans hgrow⟩, hj0⟩
      · have hjr := hj.2.trans hle₁
        rw [(hold j hjr).1]
        exact ⟨⟨by omega, hjr.trans hgrow⟩, hnewleaf j hj.1 hj.2⟩
    · rintro ⟨hj, hj0⟩
      -- a new root is no leaf, so that the leaf was there before the root
      have hjr : j ≤ r.1.numOfNodes_ := by
        by_contra hlt
        exact hnew j (not_le.mp hlt) hj.2 hj0
      rw [(hold j hjr).1] at hj0
      obtain ⟨hjl, -⟩ := hleaf j hj.1 hjr hj0
      by_cases hjt : j ≤ t.numOfNodes_
      · rw [hstep.keeps j hjt] at hj0
        exact .inl ⟨⟨hj.1, hjt⟩, hj0⟩
      · exact .inr ⟨not_le.mp hjt, hjl⟩
  · rw [leafEntries_congr hsame, live_append]
    exact (hentries.trans (h.entries.append_left _)).trans List.perm_append_comm

/-- The first insertion makes a chain of one leaf. -/
theorem linked_insertEmpty (g : t.Geometry) (hdepth : t.depth_ = 0) {e : Entry}
    (he : IntCodec.InRange β e.key ∧ IntCodec.InRange β e.value) :
    (t.insertEmpty e).writeMetadata.Linked (fun _ => 0) [1] [e] := by
  have hholds := (holdsBy_insertEmpty (Q := fun _ _ _ => True) g hdepth (lt_add_one e.key) trivial
    he).writeMetadata
  have hd : (t.insertEmpty e).writeMetadata.depth_ = 0 := hdepth
  have hchain := hholds.chain
  have hentries := hholds.entries
  have hordered := hholds.ordered
  rw [hd] at hchain hentries hordered
  refine ⟨⟨hholds.geometry, hd.ge, ⟨le_rfl, le_rfl⟩, ?_, fun b h1 h2 => ?_,
    fun b _ _ d hd' => nomatch hd'⟩, ?_, hchain, List.nodup_singleton _, fun b => ?_, hentries⟩
  · rw [hd]
    rfl
  · obtain rfl : b = 1 := le_antisymm h2 h1
    exact hordered.2.2
  · rw [hd]
    exact ⟨fun _ => rfl, fun _ => rfl⟩
  · show b ∈ [1] ↔ (1 ≤ b ∧ b ≤ 1) ∧ 0 = 0
    rw [List.mem_singleton]
    omega

/-- **The chain of every session.** -/
theorem linked_insertAll {bs : ℤ} (hbs : IntCodec.InRange β bs)
    (hopen : getMetadata (createIndexFile bs) = .ok t) (hes : Entry.AllInRange β es)
    (hfit : IntCodec.InRange β (t.insertAll es).numOfNodes_) (hne : es ≠ []) :
    ∃ height ls, (t.insertAll es).Linked height ls es := by
  obtain ⟨g, hn, -, hdepth⟩ := fresh_createIndexFile hbs hopen
  induction es using List.reverseRecOn with
  | nil => exact absurd rfl hne
  | append_singleton es e ih =>
    have he := hes e (by simp)
    have hbefore := inRange_insertAll hn.ge hfit
    rw [insertAll_concat] at hfit ⊢
    -- the first entry goes into the empty tree
    by_cases hnil : es = []
    · subst hnil
      refine ⟨fun _ => 0, [1], ?_⟩
      rw [insertAll, List.foldl_nil, BPlusTree.insert, if_pos hn]
      exact linked_insertEmpty g hdepth he
    · obtain ⟨height, ls, h⟩ := ih (fun x hx => hes x (List.mem_append_left _ hx)) hbefore hnil
      obtain ⟨height', ls', h', -⟩ := h.insert he hfit
      exact ⟨height', ls', h'⟩

/-- **The rule for a session**: what the first insertion makes true, and every later one keeps, is
true at the end. -/
theorem insertAll_rec {S : Entry → Prop} {P : BPlusTree β → Prop} {bs : ℤ}
    (hbs : IntCodec.InRange β bs) (hopen : getMetadata (createIndexFile bs) = .ok t)
    (first : ∀ e, IntCodec.InRange β e.key ∧ IntCodec.InRange β e.value → S e →
      P (t.insertEmpty e).writeMetadata)
    (step : ∀ t height ls es e, Linked t height ls es →
      IntCodec.InRange β e.key ∧ IntCodec.InRange β e.value →
      IntCodec.InRange β (t.insert e).numOfNodes_ → S e → P t → P (t.insert e))
    (hes : Entry.AllInRange β es) (hfit : IntCodec.InRange β (t.insertAll es).numOfNodes_)
    (hne : es ≠ []) (hS : ∀ e ∈ es, S e) : P (t.insertAll es) := by
  obtain ⟨-, hn, -⟩ := fresh_createIndexFile hbs hopen
  induction es using List.reverseRecOn with
  | nil => exact absurd rfl hne
  | append_singleton es e ih =>
    have he := hes e (by simp)
    have hold : Entry.AllInRange β es := fun x hx => hes x (List.mem_append_left _ hx)
    have hbefore := inRange_insertAll hn.ge hfit
    have hSe : S e := hS e (by simp)
    rw [insertAll_concat] at hfit ⊢
    by_cases hnil : es = []
    · subst hnil
      rw [insertAll, List.foldl_nil, BPlusTree.insert, if_pos hn]
      exact first e he hSe
    · obtain ⟨height, ls, h⟩ := linked_insertAll hbs hopen hold hbefore hnil
      exact step _ height ls es e h he hfit hSe
        (ih hold hbefore hnil fun x hx => hS x (List.mem_append_left _ hx))

/-! ### Range searches end -/

/-- **The walk along the chain ends**, whatever the leaves hold. -/
theorem rangeLoop_ends {a : ℤ} (hc : t.Chain a ls 0) (h0 : ∀ l ∈ ls, l ≠ 0) (first last : ℤ)
    (acc : List Entry) :
    ∃ found, ∀ fuel : ℕ, ls.length < fuel → t.rangeLoop first last fuel acc a = some found := by
  induction ls generalizing a acc with
  | nil =>
    have ha : a = 0 := hc
    refine ⟨acc, fun fuel hfuel => ?_⟩
    obtain ⟨fuel, rfl⟩ := Nat.exists_eq_succ_of_ne_zero hfuel.ne'
    rw [rangeLoop, if_pos ha]
  | cons l ls ih =>
    obtain ⟨rfl, hc⟩ := hc
    have ha := h0 a (List.mem_cons_self ..)
    obtain ⟨found, hfound⟩ := ih hc (fun l hl => h0 l (List.mem_cons_of_mem _ hl))
      (collect first last acc (t.readLeaf a).entries).1
    rcases hcollect : collect first last acc (t.readLeaf a).entries with ⟨acc', go⟩
    rw [hcollect] at hfound
    cases go with
    | false =>
      refine ⟨acc', fun fuel hfuel => ?_⟩
      obtain ⟨fuel, rfl⟩ := Nat.exists_eq_succ_of_ne_zero (Nat.ne_zero_of_lt hfuel)
      rw [rangeLoop, if_neg ha]
      dsimp only
      rw [hcollect]
    | true =>
      refine ⟨found, fun fuel hfuel => ?_⟩
      obtain ⟨fuel, rfl⟩ := Nat.exists_eq_succ_of_ne_zero (Nat.ne_zero_of_lt hfuel)
      rw [rangeLoop, if_neg ha]
      dsimp only
      rw [hcollect]
      exact hfound fuel (by simpa using hfuel)

/-- The leaves are fewer than the blocks allow. -/
theorem Linked.length_le (h : t.Linked height ls es) : (ls.length : ℤ) ≤ t.numOfNodes_ := by
  have hsub : ls ⊆ newIds 0 t.numOfNodes_ := by
    intro l hl
    obtain ⟨hl, -⟩ := (h.mem_iff l).mp hl
    rw [mem_newIds]
    omega
  have hle := (List.subperm_of_subset h.nodup hsub).length_le
  have hone := h.one_le_numOfNodes
  rw [length_newIds] at hle
  omega

theorem Linked.rangeSearch_ends (h : t.Linked height ls es) (first last : ℤ) :
    ∃ found, ∀ fuel : ℕ, t.numOfNodes_ < fuel → t.rangeSearch fuel first last = some found := by
  have hone := h.one_le_numOfNodes
  have hlen := h.length_le
  obtain ⟨A, B, hls⟩ := List.append_of_mem (h.dest_mem first)
  have hchain := h.chain
  rw [hls] at hchain hlen
  obtain ⟨m, -, hm, hchain⟩ := chain_append.mp hchain
  have hsuffix : t.Chain (t.getPath first).dest ((t.getPath first).dest :: B) 0 := ⟨rfl, hchain⟩
  have h0 : ∀ l ∈ (t.getPath first).dest :: B, l ≠ 0 := by
    intro l hl
    have hmem := (h.mem_iff l).mp (by rw [hls]; exact List.mem_append_right _ hl)
    omega
  obtain ⟨found, hfound⟩ := rangeLoop_ends hsuffix h0 first last []
  refine ⟨found, fun fuel hfuel => ?_⟩
  rw [rangeSearch, if_neg (by omega)]
  refine hfound fuel ?_
  rw [List.length_append] at hlen
  omega

/-- **The leaf chain of every session**, whatever is inserted: from block `1` it visits every leaf
once and ends at `0`, the entries along it are those that were inserted, less those with key `0`,
and every range search ends. -/
theorem leafChain_insertAll {bs : ℤ} (hbs : IntCodec.InRange β bs)
    (hopen : getMetadata (createIndexFile bs) = .ok t) (hes : Entry.AllInRange β es)
    (hfit : IntCodec.InRange β (t.insertAll es).numOfNodes_) :
    (es ≠ [] → ∃ ls, (t.insertAll es).Chain 1 ls 0 ∧ ls.Nodup ∧
      (∀ b, b ∈ ls ↔ (1 ≤ b ∧ b ≤ (t.insertAll es).numOfNodes_) ∧
        (t.insertAll es).binFile_.layout ((t.insertAll es).blockOffset b) = some .leaf) ∧
      (ls.flatMap fun l => ((t.insertAll es).readLeaf l).entries).Perm
        (es.filter fun e => e.key ≠ 0)) ∧
    ∀ first last, ∃ found, ∀ fuel : ℕ, (t.insertAll es).numOfNodes_ < fuel →
      (t.insertAll es).rangeSearch fuel first last = some found := by
  by_cases hnil : es = []
  · subst hnil
    obtain ⟨-, hn, -⟩ := fresh_createIndexFile hbs hopen
    refine ⟨fun hne => absurd rfl hne, fun first last => ⟨[], fun fuel _ => ?_⟩⟩
    rw [insertAll, List.foldl_nil, rangeSearch, if_pos hn]
  · obtain ⟨height, ls, h⟩ := linked_insertAll hbs hopen hes hfit hnil
    refine ⟨fun _ => ⟨ls, h.chain, h.nodup, fun b => ?_, h.entries⟩, h.rangeSearch_ends⟩
    rw [h.mem_iff]
    refine and_congr_right fun hb => ?_
    rw [h.leveled.layout b hb.1 hb.2, layoutAt]
    split_ifs with h0 <;> simp [h0]

/-- Two entries per node, with a repeated key and the key `0`. -/
theorem leafChain_insertAll_zero :
    ∃ found, ∀ fuel : ℕ,
      (insertAll ⟨20, 0, 0, 2, 0, (createIndexFile 20 : BinFile UInt8)⟩
        [⟨3, 30⟩, ⟨3, 10⟩, ⟨0, 20⟩]).numOfNodes_ < fuel →
      (insertAll ⟨20, 0, 0, 2, 0, (createIndexFile 20 : BinFile UInt8)⟩
        [⟨3, 30⟩, ⟨3, 10⟩, ⟨0, 20⟩]).rangeSearch fuel 1 3 = some found :=
  (leafChain_insertAll (by decide) (show getMetadata (createIndexFile 20) = .ok _ from rfl)
    (by decide) (by decide)).2 1 3

end BPlusTree

end Laboratory.IndexFile
