import Laboratory.IndexFile.ByteCodec
import Laboratory.IndexFile.Equiv.Lookup
import Laboratory.IndexFile.Equiv.Overflow

/-!
# Range searches for repeated keys

A descent goes to the right of an equal separator, so a range search misses the entries of its
first key that a split has left in the leaf before.  `rangeSearch_insertAll`: as long as no leaf is
cut between equal keys (`CutsApart`), every range search finds all that was inserted.
-/

namespace Laboratory.IndexFile

namespace BPlusTree

variable {β : Type} [IntCodec β] {t : BPlusTree β} {e : Entry} {es : List Entry}

/-- A full leaf is not cut between equal keys. -/
def CutsApart (t : BPlusTree β) (e : Entry) : Prop :=
  t.Overflows e → ∀ x ∈ t.stays e, ∀ y ∈ t.moves e, x.key ≠ y.key

instance (t : BPlusTree β) (e : Entry) : Decidable (t.CutsApart e) :=
  inferInstanceAs (Decidable (_ → _))

omit [IntCodec β] in
theorem Nondecreasing.mono {lo lo' hi hi' : ℤ} {es : List Entry} (hlo : lo' ≤ lo) (hhi : hi ≤ hi')
    (h : Nondecreasing lo hi es) : Nondecreasing lo' hi' es :=
  ⟨h.1, fun e he => ⟨hlo.trans (h.2 e he).1, (h.2 e he).2.trans_le hhi⟩⟩

omit [IntCodec β] in
theorem Nondecreasing.live {lo hi : ℤ} {es : List Entry} (h : Nondecreasing lo hi es) :
    Nondecreasing lo hi (live es) :=
  ⟨h.1.filter _, fun e he => h.2 e (List.mem_of_mem_filter he)⟩

/-- The leaf of a new entry takes it in, if it is not cut between equal keys. -/
theorem CutsApart.leafTakes {lo hi : ℤ} (hcut : t.CutsApart e)
    (h : t.HoldsBy Nondecreasing lo hi es) (hlo : lo ≤ e.key) (hhi : e.key < hi)
    (hne : e.key ≠ 0) : HoldsBy.LeafTakes t Nondecreasing lo hi e := by
  obtain ⟨hb1, hb2, -, hbounds⟩ := h.dest hlo hhi
  have hcrowd : Nondecreasing (t.pathBounds e.key t.depth_.toNat lo hi t.rootBID_).1
      (t.pathBounds e.key t.depth_.toNat lo hi t.rootBID_).2 (t.crowd e) := by
    refine ⟨t.crowd_pairwise e, fun x hx => ?_⟩
    rcases mem_crowd.mp hx with hx | rfl
    · exact hbounds x hx
    · exact ⟨hb1, hb2⟩
  refine h.leafTakes hcrowd.live fun x r hmoves hover => ?_
  obtain ⟨y, hy⟩ := exists_mem_stays h.geometry hover
  obtain ⟨hpair, hin⟩ := hcrowd
  rw [← stays_append_moves, hmoves] at hpair hin
  obtain ⟨hpl, hpr, hlr⟩ := List.pairwise_append.mp hpair
  -- sorted and apart, so all that stays is below the promoted key
  have hlt : ∀ z ∈ t.stays e, z.key < x.key := fun z hz =>
    lt_of_le_of_ne (hlr z hz x (List.mem_cons_self ..))
      (hcut hover z hz x (by rw [hmoves]; exact List.mem_cons_self ..))
  have hx : x ∈ t.crowd e := by
    rw [← stays_append_moves, hmoves]
    exact List.mem_append_right _ (List.mem_cons_self ..)
  refine ⟨?_, (hin x (by simp)).2, key_ne_zero_of_mem_crowd hne hx, Nondecreasing.live ⟨hpl, ?_⟩,
    Nondecreasing.live ⟨hpr, ?_⟩⟩
  · exact (hin y (List.mem_append_left _ hy)).1.trans_lt (hlt y hy)
  · exact fun z hz => ⟨(hin z (List.mem_append_left _ hz)).1, hlt z hz⟩
  · intro z hz
    refine ⟨?_, (hin z (List.mem_append_right _ hz)).2⟩
    rcases List.mem_cons.mp hz with rfl | hz
    · exact le_rfl
    · exact (List.pairwise_cons.mp hpr).1 z hz

/-- An insertion keeps the order of the leaves. -/
theorem RepresentsBy.insert_cutsApart (h : t.RepresentsBy Nondecreasing es)
    (he : IntCodec.InRange β e.key ∧ IntCodec.InRange β e.value)
    (hfit : IntCodec.InRange β (t.insert e).numOfNodes_) (hne : e.key ≠ 0)
    (hcut : t.CutsApart e) :
    (t.insert e).RepresentsBy Nondecreasing (live [e] ++ es) := by
  refine h.insert (fun _ _ _ _ _ => Nondecreasing.mono) ?_
    (fun lo hi hholds hlo hhi => hcut.leafTakes hholds hlo hhi hne) he hfit
  exact Nondecreasing.live ⟨List.pairwise_singleton _ _, by simp⟩

/-- **Range searches for repeated keys** find all that was inserted, as long as no leaf is cut
between equal keys. -/
theorem rangeSearch_insertAll {bs : ℤ} (hbs : IntCodec.InRange β bs)
    (hopen : getMetadata (createIndexFile bs) = .ok t) (es : List Entry)
    (hes : Entry.AllInRange β es) (hfit : IntCodec.InRange β (t.insertAll es).numOfNodes_)
    (hne : ∀ e ∈ es, e.key ≠ 0) (hcut : Throughout CutsApart t es) (first last : ℤ) {fuel : ℕ}
    (hfuel : (t.insertAll es).numOfNodes_ < fuel) :
    ∃ found, (t.insertAll es).rangeSearch fuel first last = some found ∧
      found.Perm (es.filter (inRange first last)) := by
  have hempty := represents_iff.mp (represents_createIndexFile hbs hopen)
  have h := representsBy_insertAll (S := fun es => ∀ e ∈ es, e.key ≠ 0)
    (fun es e hes x hx => hes x (List.mem_append_left _ hx))
    (fun t es e h he hfit hes hcut => h.insert_cutsApart he hfit (hes e (by simp)) hcut)
    (hempty.imp fun _ _ _ => Increasing.nondecreasing) hes hfit hne hcut
  rw [live_eq_self hne] at h
  exact h.rangeSearch_perm first last hfuel

/-- Two entries per node: the third insertion cuts the root leaf below the repeated key. -/
theorem rangeSearch_insertAll_repeated :
    ∃ found, (insertAll ⟨20, 0, 0, 2, 0, (createIndexFile 20 : BinFile UInt8)⟩
        [⟨3, 30⟩, ⟨3, 10⟩, ⟨1, 20⟩]).rangeSearch 4 2 3 = some found ∧
      found.Perm [⟨3, 30⟩, ⟨3, 10⟩] :=
  rangeSearch_insertAll (by decide) (show getMetadata (createIndexFile 20) = .ok _ from rfl)
    [⟨3, 30⟩, ⟨3, 10⟩, ⟨1, 20⟩] (by decide) (by decide) (by decide) (by decide) 2 3 (by decide)

/-- One entry per node: the second insertion leaves the first entry to the left of its separator,
where a range search for its key does not look. -/
theorem rangeSearch_misses :
    ∃ t : BPlusTree UInt8, getMetadata (createIndexFile 12) = .ok t ∧
      ∃ found, (t.insertAll [⟨1, 10⟩, ⟨1, 20⟩]).rangeSearch 4 1 1 = some found ∧
        ¬ found.Perm ([⟨1, 10⟩, ⟨1, 20⟩].filter (inRange 1 1)) :=
  ⟨_, rfl, [⟨1, 20⟩], by decide +kernel, by decide⟩

end BPlusTree

end Laboratory.IndexFile
