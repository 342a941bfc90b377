import Laboratory.IndexFile.ByteCodec
import Laboratory.IndexFile.Equiv.Lookup
import Laboratory.IndexFile.Equiv.Overflow

/-!
# Insertions of the reserved key

Key `0` marks an unused slot.  A leaf skips such slots, but an internal node ends at the first one,
so a separator with key `0` hides the children behind it.  `reservedKey_insertAll`: as long as no
insertion promotes the key `0` (`PromotesNonzero`), a session answers as the one without the
insertions of key `0`.
-/

namespace Laboratory.IndexFile

namespace BPlusTree

variable {β : Type} [IntCodec β] {t t' : BPlusTree β} {e : Entry} {es : List Entry}

/-- A full leaf is not split at the key `0`. -/
def PromotesNonzero (t : BPlusTree β) (e : Entry) : Prop :=
  t.Overflows e → ∀ x ∈ (t.moves e).head?, x.key ≠ 0

instance (t : BPlusTree β) (e : Entry) : Decidable (t.PromotesNonzero e) :=
  inferInstanceAs (Decidable (_ → _))

/-- An insertion keeps the order of the leaves. -/
theorem RepresentsBy.insert_promotesNonzero (h : t.RepresentsBy Increasing es)
    (he : IntCodec.InRange β e.key ∧ IntCodec.InRange β e.value)
    (hfit : IntCodec.InRange β (t.insert e).numOfNodes_) (hfresh : ∀ x ∈ es, x.key ≠ e.key)
    (hzero : t.PromotesNonzero e) : (t.insert e).RepresentsBy Increasing (live [e] ++ es) := by
  refine h.insert (fun _ _ _ _ _ => Increasing.mono) ?_ (fun lo hi hholds hlo hhi => ?_) he hfit
  · refine ⟨(List.pairwise_singleton _ _).filter _, fun x hx => ?_⟩
    rw [List.mem_singleton.mp (List.mem_of_mem_filter hx)]
    exact ⟨le_rfl, lt_add_one e.key⟩
  · have hone := hholds.one_le_numOfNodes
    obtain ⟨hb1, hb2, hleaf⟩ := hholds.dest hlo hhi
    refine hleaf.takes hb1 hb2 (fun x hx => hfresh x (hholds.mem_of_mem_readLeaf hx)) ?_
      hholds.geometry.splitIndex_bounds.1
    intro l x r happ hl hlong
    have hmoves : t.moves e = x :: r := by rw [moves, crowd, happ, ← hl, List.drop_left]
    exact hzero ⟨by omega, hlong⟩ x (by rw [hmoves]; rfl)

/-- Two indexes with the same entries answer alike. -/
theorem RepresentsBy.search_congr (h : t.RepresentsBy Increasing es)
    (h' : t'.RepresentsBy Increasing es) (k : ℤ) : t.search k = t'.search k := by
  by_cases hk : ∀ e ∈ es, e.key ≠ k
  · rw [h.search_eq_neg_one hk, h'.search_eq_neg_one hk]
  · obtain ⟨⟨k', v⟩, hmem, rfl⟩ : ∃ e ∈ es, e.key = k := by simpa using hk
    rw [h.search_eq hmem, h'.search_eq hmem]

theorem RepresentsBy.rangeSearch_congr (h : t.RepresentsBy Increasing es)
    (h' : t'.RepresentsBy Increasing es) (first last : ℤ) {fuel fuel' : ℕ}
    (hfuel : t.numOfNodes_ < fuel) (hfuel' : t'.numOfNodes_ < fuel') :
    ∃ found, t.rangeSearch fuel first last = some found ∧
      t'.rangeSearch fuel' first last = some found := by
  obtain ⟨found, hfound, hperm⟩ :=
    (h.imp fun _ _ _ => Increasing.nondecreasing).rangeSearch_perm first last hfuel
  obtain ⟨found', hfound', hperm'⟩ :=
    (h'.imp fun _ _ _ => Increasing.nondecreasing).rangeSearch_perm first last hfuel'
  -- both are the entries in the range, and in increasing order
  obtain rfl : found = found' := by
    apply List.Perm.eq_of_pairwise ?_ (h.rangeSearch_pairwise first last hfuel hfound)
      (h'.rangeSearch_pairwise first last hfuel' hfound') (hperm.trans hperm'.symm)
    intro x y _ _ hxy hyx
    omega
  exact ⟨found, hfound, hfound'⟩

/-- **Insertions of the reserved key** do not show, as long as no leaf is split at the key `0`:
the session `es` answers as the session `live es` without them. -/
theorem reservedKey_insertAll {bs : ℤ} (hbs : IntCodec.InRange β bs)
    (hopen : getMetadata (createIndexFile bs) = .ok t) (es : List Entry)
    (hes : Entry.AllInRange β es) (hfit : IntCodec.InRange β (t.insertAll es).numOfNodes_)
    (hfit' : IntCodec.InRange β (t.insertAll (live es)).numOfNodes_)
    (hnodup : ((live es).map Entry.key).Nodup) (hzero : Throughout PromotesNonzero t es) :
    (∀ k, (t.insertAll es).search k = (t.insertAll (live es)).search k) ∧
      ∀ first last (fuel fuel' : ℕ), (t.insertAll es).numOfNodes_ < fuel →
        (t.insertAll (live es)).numOfNodes_ < fuel' →
        ∃ found, (t.insertAll es).rangeSearch fuel first last = some found ∧
          (t.insertAll (live es)).rangeSearch fuel' first last = some found := by
  have hempty := represents_iff.mp (represents_createIndexFile hbs hopen)
  have h := representsBy_insertAll (S := fun es => ((live es).map Entry.key).Nodup) ?_ ?_ hempty
    hes hfit hnodup hzero
  · have hlive : Insertable β (live es) := ⟨hnodup,
      fun e he => by simpa using List.of_mem_filter he,
      fun e he => hes e (List.mem_of_mem_filter he)⟩
    have h' := represents_iff.mp (represents_session hbs hopen hlive hfit')
    exact ⟨h.search_congr h', fun first last _ _ => h.rangeSearch_congr h' first last⟩
  · intro es e hnodup
    rw [live_append, List.map_append] at hnodup
    exact (List.nodup_append.mp hnodup).1
  · intro t es e h he hfit hnodup hzero
    refine h.insert_promotesNonzero he hfit (fun x hx hkey => ?_) hzero
    -- a stored key is not `0`, so the new entry would repeat it
    have hne : x.key ≠ 0 := by simpa using List.of_mem_filter hx
    have hlive : live [e] = [e] := live_eq_self (by simpa [← hkey] using hne)
    rw [live_append, hlive, List.map_append, List.nodup_append] at hnodup
    exact hnodup.2.2 x.key (List.mem_map_of_mem hx) e.key (by simp) hkey

/-- Two entries per node: the third insertion cuts the root leaf above the key `0`. -/
theorem reservedKey_insertAll_split :
    (insertAll ⟨20, 0, 0, 2, 0, (createIndexFile 20 : BinFile UInt8)⟩
        [⟨8, 3⟩, ⟨0, 1⟩, ⟨5, 2⟩]).search 8 =
      (insertAll ⟨20, 0, 0, 2, 0, (createIndexFile 20 : BinFile UInt8)⟩
        (live [⟨8, 3⟩, ⟨0, 1⟩, ⟨5, 2⟩])).search 8 :=
  (reservedKey_insertAll (by decide) (show getMetadata (createIndexFile 20) = .ok _ from rfl)
    [⟨8, 3⟩, ⟨0, 1⟩, ⟨5, 2⟩] (by decide) (by decide) (by decide) (by decide) (by decide)).1 8

/-- Two entries per node: the third insertion splits the root leaf at the key `0`, and the new leaf
with the key `8` cannot be reached. -/
theorem reservedKey_hides :
    ∃ t : BPlusTree UInt8, getMetadata (createIndexFile 20) = .ok t ∧
      (t.insertAll [⟨-5, 1⟩, ⟨8, 3⟩, ⟨0, 1⟩]).search 8 = -1 ∧
        (t.insertAll (live [⟨-5, 1⟩, ⟨8, 3⟩, ⟨0, 1⟩])).search 8 = 3 :=
  ⟨_, rfl, by decide +kernel, by decide +kernel⟩

end BPlusTree

end Laboratory.IndexFile
