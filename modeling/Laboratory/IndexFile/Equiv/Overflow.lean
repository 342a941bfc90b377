import Laboratory.IndexFile.Equiv.Session
import Mathlib.Data.List.Induction

/-!
# How a full leaf is cut

`crowd t e` is the leaf that an insertion of `e` reaches, with `e` in it.  When it is longer than
`capacity_`, the insertion cuts it into what `stays` and what `moves`, and promotes the first key
that moves.  `Throughout` says that every insertion of a session meets a condition on the state
before it, and `representsBy_insertAll` carries an invariant through such a session.
-/

namespace Laboratory.IndexFile

namespace BPlusTree

variable {β : Type} [IntCodec β] {t : BPlusTree β} {e : Entry}

/-- The leaf of a new entry with the entry in it. -/
def crowd (t : BPlusTree β) (e : Entry) : List Entry :=
  sortEntries ((t.readLeaf (t.getPath e.key).dest).entries ++ [e])

/-- The leaf of a new entry has no room for it. -/
def Overflows (t : BPlusTree β) (e : Entry) : Prop :=
  t.numOfNodes_ ≠ 0 ∧ t.capacity_ < (t.crowd e).length

instance : Decidable (t.Overflows e) :=
  inferInstanceAs (Decidable (t.numOfNodes_ ≠ 0 ∧ t.capacity_ < (t.crowd e).length))

/-- What stays in a leaf that is split. -/
def stays (t : BPlusTree β) (e : Entry) : List Entry :=
  (t.crowd e).take t.splitIndex.toNat

/-- What moves to the new leaf. -/
def moves (t : BPlusTree β) (e : Entry) : List Entry :=
  (t.crowd e).drop t.splitIndex.toNat

theorem stays_append_moves (t : BPlusTree β) (e : Entry) : t.stays e ++ t.moves e = t.crowd e :=
  List.take_append_drop _ _

theorem mem_crowd {x : Entry} :
    x ∈ t.crowd e ↔ x ∈ (t.readLeaf (t.getPath e.key).dest).entries ∨ x = e := by
  rw [crowd, (sortEntries_perm _).mem_iff, List.mem_append, List.mem_singleton]

/-- The crowd is sorted by key. -/
theorem crowd_pairwise (t : BPlusTree β) (e : Entry) :
    (t.crowd e).Pairwise fun x y => x.key ≤ y.key := by
  refine (List.pairwise_insertionSort Entry.le _).imp fun hxy => ?_
  unfold Entry.le at hxy
  omega

/-- Only a new entry brings the key `0` into a leaf. -/
theorem key_ne_zero_of_mem_crowd (he : e.key ≠ 0) {x : Entry} (hx : x ∈ t.crowd e) : x.key ≠ 0 := by
  rcases mem_crowd.mp hx with hx | rfl
  · exact key_ne_zero_of_mem_readLeaf hx
  · exact he

/-- Something stays in a leaf that is split. -/
theorem exists_mem_stays (g : t.Geometry) (h : t.Overflows e) : ∃ x, x ∈ t.stays e := by
  obtain ⟨hmid, hle⟩ := g.splitIndex_bounds
  obtain ⟨-, hlong⟩ := h
  refine List.exists_mem_of_length_pos ?_
  rw [stays, List.length_take]
  omega

/-- The leaf of a new entry takes it in, if the crowd keeps `Q`, and so do its two parts. -/
theorem HoldsBy.leafTakes {Q : ℤ → ℤ → List Entry → Prop} {lo hi lo' hi' : ℤ} {es : List Entry}
    (h : t.HoldsBy Q lo hi es) (hfits : Q lo' hi' (live (t.crowd e)))
    (hsplit : ∀ x r, t.moves e = x :: r → t.Overflows e → lo' < x.key ∧ x.key < hi' ∧ x.key ≠ 0 ∧
      Q lo' x.key (live (t.stays e)) ∧ Q x.key hi' (live (x :: r))) :
    t.Takes Q e lo' hi' (t.readLeaf (t.getPath e.key).dest).entries := by
  have hone := h.one_le_numOfNodes
  refine ⟨fun _ => hfits, fun l x r happ hl hlong => ?_⟩
  have hstays : t.stays e = l := by rw [stays, crowd, happ, ← hl, List.take_left]
  have hmoves : t.moves e = x :: r := by rw [moves, crowd, happ, ← hl, List.drop_left]
  have hcut := hsplit x r hmoves ⟨by omega, hlong⟩
  rwa [hstays] at hcut

/-! ### Sessions whose insertions meet a condition -/

/-- Every insertion of a session meets `P` in the state before it. -/
def Throughout (P : BPlusTree β → Entry → Prop) : BPlusTree β → List Entry → Prop
  | _, [] => True
  | t, e :: es => P t e ∧ Throughout P (t.insert e) es

instance decidableThroughout (P : BPlusTree β → Entry → Prop) [∀ t e, Decidable (P t e)] :
    ∀ t es, Decidable (Throughout P t es)
  | _, [] => isTrue trivial
  | t, e :: es =>
    have := decidableThroughout P (t.insert e) es
    inferInstanceAs (Decidable (P t e ∧ Throughout P (t.insert e) es))

theorem throughout_concat {P : BPlusTree β → Entry → Prop} {es : List Entry} :
    Throughout P t (es ++ [e]) ↔ Throughout P t es ∧ P (t.insertAll es) e := by
  induction es generalizing t with
  | nil =>
    rw [List.nil_append, Throughout, Throughout, Throughout, true_and, and_true]
    rfl
  | cons x es ih =>
    rw [List.cons_append, Throughout, Throughout, ih, and_assoc]
    rfl

/-- A session keeps an invariant, if its insertions do.  `S` is what is asked of the entries, which
fit into the file as the numbers of the blocks do. -/
theorem representsBy_insertAll {Q : ℤ → ℤ → List Entry → Prop} {P : BPlusTree β → Entry → Prop}
    {S : List Entry → Prop} (hS : ∀ es e, S (es ++ [e]) → S es)
    (hstep : ∀ t es e, t.RepresentsBy Q (live es) →
      IntCodec.InRange β e.key ∧ IntCodec.InRange β e.value →
      IntCodec.InRange β (t.insert e).numOfNodes_ → S (es ++ [e]) → P t e →
        (t.insert e).RepresentsBy Q (live [e] ++ live es))
    {t : BPlusTree β} (h : t.RepresentsBy Q []) {es : List Entry} (hrange : Entry.AllInRange β es)
    (hfit : IntCodec.InRange β (t.insertAll es).numOfNodes_) (hes : S es)
    (hrun : Throughout P t es) : (t.insertAll es).RepresentsBy Q (live es) := by
  induction es using List.reverseRecOn with
  | nil => exact h
  | append_singleton es e ih =>
    obtain ⟨hrun, he⟩ := throughout_concat.mp hrun
    have hbefore := ih (fun x hx => hrange x (List.mem_append_left _ hx))
      (inRange_insertAll h.numOfNodes_nonneg hfit) (hS es e hes) hrun
    rw [insertAll_concat] at hfit ⊢
    rw [live_append]
    exact (hstep _ es e hbefore (hrange e (by simp)) hfit hes he).perm List.perm_append_comm

end BPlusTree

end Laboratory.IndexFile
