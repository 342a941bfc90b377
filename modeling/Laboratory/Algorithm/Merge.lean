import Mathlib.Data.List.Basic
import Mathlib.Logic.Function.Basic

/-!
# Merges of streams

`IsMerge streams l` says that `l` is made of subsequences of the streams: every element comes from
one of them, and the elements that come from one stream are in its order.  Elements of a stream may
be missing in `l`, and an element may be in several streams.
-/

namespace Laboratory.Algorithm

open scoped List

variable {κ α : Type*} [DecidableEq κ]

/-- The elements of `tagged` that come from the stream `k`. -/
def fromStream (k : κ) (tagged : List (κ × α)) : List α :=
  (tagged.filter fun p => p.1 = k).map Prod.snd

/-- `l` is a merge of subsequences of the streams. -/
def IsMerge (streams : κ → List α) (l : List α) : Prop :=
  ∃ tagged : List (κ × α), tagged.map Prod.snd = l ∧ ∀ k, fromStream k tagged <+ streams k

variable {streams streams' : κ → List α} {l l' : List α}

theorem fromStream_concat_self (k : κ) (a : α) (tagged : List (κ × α)) :
    fromStream k (tagged ++ [(k, a)]) = fromStream k tagged ++ [a] := by
  simp [fromStream]

theorem fromStream_concat_of_ne {k j : κ} (h : j ≠ k) (a : α) (tagged : List (κ × α)) :
    fromStream j (tagged ++ [(k, a)]) = fromStream j tagged := by
  simp [fromStream, h.symm]

theorem fromStream_sublist (k : κ) {s t : List (κ × α)} (h : s <+ t) :
    fromStream k s <+ fromStream k t :=
  (h.filter _).map _

namespace IsMerge

theorem nil : IsMerge streams [] :=
  ⟨[], rfl, fun _ => List.nil_sublist _⟩

/-- A merge with some elements left out. -/
theorem sublist (h : IsMerge streams l) (hl : l' <+ l) : IsMerge streams l' := by
  obtain ⟨tagged, rfl, hsub⟩ := h
  obtain ⟨tagged', htagged, rfl⟩ := List.sublist_map_iff.mp hl
  exact ⟨tagged', rfl, fun k => (fromStream_sublist k htagged).trans (hsub k)⟩

/-- A stream may get longer. -/
theorem mono (h : IsMerge streams l) (hstreams : ∀ k, streams k <+ streams' k) :
    IsMerge streams' l := by
  obtain ⟨tagged, hl, hsub⟩ := h
  exact ⟨tagged, hl, fun k => (hsub k).trans (hstreams k)⟩

/-- **The next element of a stream** may be appended. -/
theorem concat (h : IsMerge streams l) {k : κ} {a : α} (hk : streams k ++ [a] <+ streams' k)
    (hother : ∀ j, j ≠ k → streams j <+ streams' j) : IsMerge streams' (l ++ [a]) := by
  obtain ⟨tagged, rfl, hsub⟩ := h
  refine ⟨tagged ++ [(k, a)], by simp, fun j => ?_⟩
  by_cases hj : j = k
  · subst hj
    rw [fromStream_concat_self]
    exact ((List.append_sublist_append_right _).mpr (hsub j)).trans hk
  · rw [fromStream_concat_of_ne hj]
    exact (hsub j).trans (hother j hj)

/-- Every element comes from a stream. -/
theorem exists_mem (h : IsMerge streams l) {a : α} (ha : a ∈ l) : ∃ k, a ∈ streams k := by
  obtain ⟨tagged, rfl, hsub⟩ := h
  obtain ⟨⟨k, a⟩, hp, rfl⟩ := List.mem_map.mp ha
  refine ⟨k, (hsub k).subset ?_⟩
  rw [fromStream, List.mem_map]
  exact ⟨(k, a), List.mem_filter.mpr ⟨hp, by simp⟩, rfl⟩

/-- **If no two streams share an element**, the elements of one stream are in its order. -/
theorem filter_sublist [DecidableEq α] (h : IsMerge streams l) {k : κ}
    (hdisjoint : ∀ j a, a ∈ streams j → a ∈ streams k → j = k) :
    l.filter (· ∈ streams k) <+ streams k := by
  obtain ⟨tagged, rfl, hsub⟩ := h
  have hfilter : (tagged.map Prod.snd).filter (· ∈ streams k) = fromStream k tagged := by
    rw [List.filter_map, fromStream]
    congr 1
    refine List.filter_congr fun p hp => ?_
    -- An element that the stream `k` has is tagged with `k`.
    have hmem : p.2 ∈ streams p.1 := by
      apply (hsub p.1).subset
      rw [fromStream, List.mem_map]
      exact ⟨p, List.mem_filter.mpr ⟨hp, by simp⟩, rfl⟩
    simp only [Function.comp_apply, decide_eq_decide]
    constructor
    · exact hdisjoint p.1 p.2 hmem
    · rintro rfl
      exact hmem
  rw [hfilter]
  exact hsub k

end IsMerge

end Laboratory.Algorithm
