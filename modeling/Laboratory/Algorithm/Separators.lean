import Mathlib.Data.List.TakeWhile
import Mathlib.Order.Lattice

/-!
# Separators: a node that cuts an interval

A node of a search tree lists a first child and separators, each with the child to its right.
`Span P lo c ss hi` says that the children of `c, ss` satisfy `P` on the consecutive intervals
that the separator keys cut out of `[lo, hi)`.  The keys, the children and `P` are arbitrary.

`span_append` cuts a span at any child, which is what descending to a child, replacing it and
splitting the node need; `takeWhile_bounds` says that the child picked by "the last separator
not above `k`" owns the interval with `k` in it.
-/

namespace Laboratory.Separators

variable {κ γ α : Type*} (key : α → κ) (val : α → γ)

/-! ### The children of a node -/

/-- The first child and the children right of the separators. -/
def children (c : γ) (ss : List α) : List γ := c :: ss.map val

/-- The child right of the last separator. -/
def lastChild (c : γ) : List α → γ
  | [] => c
  | s :: ss => lastChild (val s) ss

/-- The children before the last one. -/
def frontChildren (c : γ) : List α → List γ
  | [] => []
  | s :: ss => c :: frontChildren (val s) ss

theorem children_append (c : γ) (ss ts : List α) :
    children val c (ss ++ ts) =
      frontChildren val c ss ++ lastChild val c ss :: ts.map val := by
  induction ss generalizing c with
  | nil => rfl
  | cons s ss ih =>
    have := ih (val s)
    simp only [children, List.cons_append, List.map_cons, frontChildren, lastChild] at this ⊢
    rw [this]

theorem children_append_cons (c : γ) (ss ts : List α) (s : α) :
    children val c (ss ++ s :: ts) = children val c ss ++ children val (val s) ts := by
  simp [children]

/-! ### The bounds next to a child -/

/-- The lower bound of the last child of `ss`. -/
def lowerBound (lo : κ) : List α → κ
  | [] => lo
  | s :: ss => lowerBound (key s) ss

/-- The upper bound of the child before `ss`. -/
def upperBound (hi : κ) : List α → κ
  | [] => hi
  | s :: _ => key s

/-- A lower bound is the outer one or a separator. -/
theorem lowerBound_mem (lo : κ) (ss : List α) :
    lowerBound key lo ss = lo ∨ ∃ s ∈ ss, key s = lowerBound key lo ss := by
  induction ss generalizing lo with
  | nil => exact .inl rfl
  | cons s ss ih =>
    right
    rcases ih (key s) with h | ⟨x, hx, h⟩
    · exact ⟨s, List.mem_cons_self .., h.symm⟩
    · exact ⟨x, List.mem_cons_of_mem _ hx, h⟩

/-- An upper bound is the outer one or a separator. -/
theorem upperBound_mem (hi : κ) (ss : List α) :
    upperBound key hi ss = hi ∨ ∃ s ∈ ss, key s = upperBound key hi ss := by
  cases ss with
  | nil => exact .inl rfl
  | cons s ss => exact .inr ⟨s, List.mem_cons_self .., rfl⟩

variable [LinearOrder κ]

theorem lowerBound_le {lo k : κ} {ss : List α} (hlo : lo ≤ k) (hss : ∀ s ∈ ss, key s ≤ k) :
    lowerBound key lo ss ≤ k := by
  induction ss generalizing lo with
  | nil => exact hlo
  | cons s ss ih =>
    exact ih (hss s (List.mem_cons_self ..)) fun x hx => hss x (List.mem_cons_of_mem _ hx)

/-- **Routing**: cutting the separators at the last key not above `k` leaves `k` between the two
bounds. -/
theorem takeWhile_bounds {lo hi k : κ} (hlo : lo ≤ k) (hhi : k < hi) (ss : List α) :
    lowerBound key lo (ss.takeWhile fun s => key s ≤ k) ≤ k ∧
      k < upperBound key hi (ss.dropWhile fun s => key s ≤ k) := by
  constructor
  · refine lowerBound_le key hlo fun s hs => ?_
    simpa using List.mem_takeWhile_imp hs
  · rcases hd : ss.dropWhile fun s => key s ≤ k with _ | ⟨s, rest⟩
    · exact hhi
    · have hnot := List.head_dropWhile_not (fun s => decide (key s ≤ k)) (l := ss) (by simp [hd])
      simp only [hd, List.head_cons, decide_eq_false_iff_not, not_le] at hnot
      exact hnot

/-- Past the cut, the keys of increasing separators are above `k`. -/
theorem lt_of_mem_dropWhile {k : κ} {ss : List α} (h : ss.Pairwise fun a b => key a < key b) {s : α}
    (hs : s ∈ ss.dropWhile fun s => key s ≤ k) : k < key s := by
  induction ss with
  | nil => simp at hs
  | cons x ss ih =>
    obtain ⟨hx, hp⟩ := List.pairwise_cons.mp h
    by_cases hk : key x ≤ k
    · rw [List.dropWhile_cons_of_pos (by simpa using hk)] at hs
      exact ih hp hs
    · rw [List.dropWhile_cons_of_neg (by simpa using hk)] at hs
      rcases List.mem_cons.mp hs with rfl | hs
      · exact not_le.mp hk
      · exact (not_le.mp hk).trans (hx s hs)

/-! ### Spans -/

/-- The children of `c, ss` satisfy `P` on consecutive intervals of `[lo, hi)`. -/
def Span (P : κ → κ → γ → Prop) : κ → γ → List α → κ → Prop
  | lo, c, [], hi => P lo hi c
  | lo, c, s :: ss, hi => P lo (key s) c ∧ Span P (key s) (val s) ss hi

/-- The children before the last one satisfy `P`. -/
def Front (P : κ → κ → γ → Prop) : κ → γ → List α → Prop
  | _, _, [] => True
  | lo, c, s :: ss => P lo (key s) c ∧ Front P (key s) (val s) ss

/-- The children right of the separators satisfy `P`. -/
def Back (P : κ → κ → γ → Prop) : List α → κ → Prop
  | [], _ => True
  | s :: ss, hi => Span key val P (key s) (val s) ss hi

variable {key val} {P Q : κ → κ → γ → Prop}

omit [LinearOrder κ] in
/-- **A span cut at a child.** -/
theorem span_append {lo hi : κ} {c : γ} (ss ts : List α) :
    Span key val P lo c (ss ++ ts) hi ↔
      Front key val P lo c ss ∧
        P (lowerBound key lo ss) (upperBound key hi ts) (lastChild val c ss) ∧
        Back key val P ts hi := by
  induction ss generalizing lo c with
  | nil => cases ts <;> simp [Span, Front, Back, lowerBound, upperBound, lastChild]
  | cons s ss ih => simp only [List.cons_append, Span, Front, lowerBound, lastChild, ih, and_assoc]

omit [LinearOrder κ] in
/-- A span cut at a separator. -/
theorem span_append_cons {lo hi : κ} {c : γ} (ss ts : List α) (s : α) :
    Span key val P lo c (ss ++ s :: ts) hi ↔
      Span key val P lo c ss (key s) ∧ Span key val P (key s) (val s) ts hi := by
  induction ss generalizing lo c with
  | nil => rfl
  | cons x ss ih => simp only [List.cons_append, Span, ih, and_assoc]

omit [LinearOrder κ] in
/-- A span with a child and the separator before it picked out. -/
theorem span_append_insert {lo hi : κ} {c : γ} (ss ts : List α) (s : α) :
    Span key val P lo c (ss ++ s :: ts) hi ↔
      Front key val P lo c ss ∧ P (lowerBound key lo ss) (key s) (lastChild val c ss) ∧
        P (key s) (upperBound key hi ts) (val s) ∧ Back key val P ts hi := by
  have hback : Back key val P (s :: ts) hi ↔
      P (key s) (upperBound key hi ts) (val s) ∧ Back key val P ts hi := by
    cases ts <;> simp [Span, Back, upperBound]
  rw [span_append, hback, upperBound]

omit [LinearOrder κ] in
/-- The children of a span may be given another property. -/
theorem Span.imp {lo hi : κ} {c : γ} {ss : List α}
    (h : ∀ lo hi, ∀ x ∈ children val c ss, P lo hi x → Q lo hi x)
    (hs : Span key val P lo c ss hi) : Span key val Q lo c ss hi := by
  induction ss generalizing lo c with
  | nil => exact h _ _ c (by simp [children]) hs
  | cons s ss ih =>
    refine ⟨h _ _ c (by simp [children]) hs.1, ih (fun lo hi x hx => h lo hi x ?_) hs.2⟩
    exact List.mem_cons_of_mem _ hx

omit [LinearOrder κ] in
theorem Front.imp {lo : κ} {c : γ} {ss : List α}
    (h : ∀ lo hi, ∀ x ∈ frontChildren val c ss, P lo hi x → Q lo hi x)
    (hs : Front key val P lo c ss) : Front key val Q lo c ss := by
  induction ss generalizing lo c with
  | nil => trivial
  | cons s ss ih =>
    exact ⟨h _ _ c (by simp [frontChildren]) hs.1,
      ih (fun lo hi x hx => h lo hi x (List.mem_cons_of_mem _ hx)) hs.2⟩

omit [LinearOrder κ] in
theorem Back.imp {hi : κ} {ts : List α} (h : ∀ lo hi, ∀ x ∈ ts.map val, P lo hi x → Q lo hi x)
    (hs : Back key val P ts hi) : Back key val Q ts hi := by
  cases ts with
  | nil => trivial
  | cons s ts => exact Span.imp h hs

omit [LinearOrder κ] in
/-- A child before the last one ends at a separator. -/
theorem Front.mem {lo : κ} {c x : γ} {ss : List α} (hs : Front key val P lo c ss)
    (hx : x ∈ frontChildren val c ss) : ∃ s ∈ ss, ∃ lo', P lo' (key s) x := by
  induction ss generalizing lo c with
  | nil => cases hx
  | cons s ss ih =>
    rcases List.mem_cons.mp hx with rfl | hx
    · exact ⟨s, List.mem_cons_self .., lo, hs.1⟩
    · obtain ⟨s', hs', h⟩ := ih hs.2 hx
      exact ⟨s', List.mem_cons_of_mem _ hs', h⟩

omit [LinearOrder κ] in
/-- A child right of a separator starts at it. -/
theorem Back.mem {hi : κ} {x : γ} {ts : List α} (hs : Back key val P ts hi)
    (hx : x ∈ ts.map val) : ∃ s ∈ ts, ∃ hi', P (key s) hi' x := by
  obtain ⟨s, hmem, rfl⟩ := List.mem_map.mp hx
  obtain ⟨ss₁, ss₂, rfl⟩ := List.append_of_mem hmem
  refine ⟨s, hmem, upperBound key hi ss₂, ?_⟩
  cases ss₁ with
  | nil => exact ((span_append [] ss₂).mp hs).2.1
  | cons t ss₁ =>
    exact ((span_append [] ss₂).mp ((span_append_cons ss₁ ss₂ s).mp hs).2).2.1

omit [LinearOrder κ] in
/-- The `i`-th child of a node is the last child of the first `i` separators. -/
theorem children_getElem? {c x : γ} {ss : List α} {i : ℕ} (h : (children val c ss)[i]? = some x) :
    x = lastChild val c (ss.take i) := by
  induction ss generalizing c i with
  | nil =>
    obtain ⟨hi, hx⟩ := List.getElem?_eq_some_iff.mp h
    simp only [children, List.map_nil, List.getElem_singleton] at hx
    rw [List.take_nil, ← hx]
    rfl
  | cons s ss ih =>
    cases i with
    | zero => simpa [children, lastChild, eq_comm] using h
    | succ i => exact ih h

omit [LinearOrder κ] in
/-- Every child of a span satisfies `P` on the interval between its separators. -/
theorem Span.getElem? {lo hi : κ} {c x : γ} {ss : List α} (hs : Span key val P lo c ss hi) {i : ℕ}
    (h : (children val c ss)[i]? = some x) :
    P (lowerBound key lo (ss.take i)) (upperBound key hi (ss.drop i)) x := by
  rw [← List.take_append_drop i ss, span_append] at hs
  rw [children_getElem? h]
  exact hs.2.1

omit [LinearOrder κ] in
/-- The lower bound of a child is the separator on its left. -/
theorem lowerBound_take {lo : κ} {ss : List α} {i : ℕ} {s : α} (h : ss[i]? = some s) :
    lowerBound key lo (ss.take (i + 1)) = key s := by
  induction ss generalizing lo i with
  | nil => simp at h
  | cons x ss ih =>
    cases i with
    | zero =>
      obtain rfl : x = s := by simpa using h
      simp [lowerBound]
    | succ i => exact ih h

omit [LinearOrder κ] in
/-- The upper bound of a child is the separator on its right. -/
theorem upperBound_drop {hi : κ} {ss : List α} {i : ℕ} {s : α} (h : ss[i]? = some s) :
    upperBound key hi (ss.drop i) = key s := by
  obtain ⟨hi, rfl⟩ := List.getElem?_eq_some_iff.mp h
  rw [List.drop_eq_getElem_cons hi, upperBound]

/-! ### Spans of non-empty intervals -/

section Lt

variable (hlt : ∀ {lo hi : κ} {c : γ}, P lo hi c → lo < hi)
include hlt

theorem Span.lt {lo hi : κ} {c : γ} {ss : List α} (hs : Span key val P lo c ss hi) : lo < hi := by
  induction ss generalizing lo c with
  | nil => exact hlt hs
  | cons s ss ih => exact (hlt hs.1).trans (ih hs.2)

theorem Span.mem_lt {lo hi : κ} {c : γ} {ss : List α} (hs : Span key val P lo c ss hi) :
    ∀ s ∈ ss, lo < key s ∧ key s < hi := by
  intro s hmem
  obtain ⟨ss₁, ss₂, rfl⟩ := List.append_of_mem hmem
  rw [span_append_cons] at hs
  exact ⟨hs.1.lt hlt, hs.2.lt hlt⟩

/-- The separator keys increase strictly. -/
theorem Span.pairwise {lo hi : κ} {c : γ} {ss : List α} (hs : Span key val P lo c ss hi) :
    ss.Pairwise fun a b => key a < key b := by
  induction ss generalizing lo c with
  | nil => exact List.Pairwise.nil
  | cons s ss ih => exact List.pairwise_cons.mpr ⟨fun x hx => (hs.2.mem_lt hlt x hx).1, ih hs.2⟩

/-- The interval of a child lies within that of the node. -/
theorem Span.bounds {lo hi : κ} {c : γ} {ss ts : List α} (hs : Span key val P lo c (ss ++ ts) hi) :
    lo ≤ lowerBound key lo ss ∧ upperBound key hi ts ≤ hi := by
  constructor
  · induction ss generalizing lo c with
    | nil => exact le_rfl
    | cons s ss ih => exact (hlt hs.1).le.trans (ih hs.2)
  · cases ts with
    | nil => exact le_rfl
    | cons s ts => exact (((span_append_cons ss ts s).mp hs).2.lt hlt).le

/-- The children of a span may be given another property on intervals within its bounds. -/
theorem Span.imp_within {lo hi : κ} {c : γ} {ss : List α}
    (h : ∀ lo' hi' x, lo ≤ lo' → hi' ≤ hi → P lo' hi' x → Q lo' hi' x)
    (hs : Span key val P lo c ss hi) : Span key val Q lo c ss hi := by
  induction ss generalizing lo c with
  | nil => exact h _ _ _ le_rfl le_rfl hs
  | cons s ss ih =>
    refine ⟨h _ _ _ le_rfl (hs.2.lt hlt).le hs.1, ih (fun lo' hi' x hlo => ?_) hs.2⟩
    exact h lo' hi' x ((hlt hs.1).le.trans hlo)

/-- **The route of `k`** goes to the one child whose interval can hold `k`. -/
theorem Span.route {k lo hi : κ} {c : γ} {ss : List α}
    (hdest : ∀ lo hi, P lo hi (lastChild val c (ss.takeWhile fun s => key s ≤ k)) →
      Q lo hi (lastChild val c (ss.takeWhile fun s => key s ≤ k)))
    (hother : ∀ lo hi x, ¬ (lo ≤ k ∧ k < hi) → P lo hi x → Q lo hi x)
    (hs : Span key val P lo c ss hi) : Span key val Q lo c ss hi := by
  induction ss generalizing lo c with
  | nil => exact hdest _ _ hs
  | cons s ss ih =>
    by_cases hk : key s ≤ k
    · -- the first child ends at a separator not above `k`
      rw [List.takeWhile_cons_of_pos (by simpa using hk)] at hdest
      exact ⟨hother _ _ _ (fun h => absurd hk (not_le.mpr h.2)) hs.1, ih hdest hs.2⟩
    · -- the others start at a separator above `k`
      rw [List.takeWhile_cons_of_neg (by simpa using hk)] at hdest
      refine ⟨hdest _ _ hs.1, hs.2.imp_within hlt fun lo hi x hlo _ => ?_⟩
      exact hother lo hi x fun h => hk (hlo.trans h.1)

end Lt

/-- What lies below the children of a span is in order, when it is below each child. -/
theorem Span.flatMap {δ : Type*} {key' : δ → κ} {f : γ → List δ} {r : δ → δ → Prop}
    (hr : ∀ {a b}, key' a < key' b → r a b)
    (hP : ∀ {lo hi : κ} {x : γ}, P lo hi x → (f x).Pairwise r ∧
      ∀ a ∈ f x, lo ≤ key' a ∧ key' a < hi)
    (hlt : ∀ {lo hi : κ} {c : γ}, P lo hi c → lo < hi) {lo hi : κ} {c : γ} {ss : List α}
    (hs : Span key val P lo c ss hi) :
    ((children val c ss).flatMap f).Pairwise r ∧
      ∀ a ∈ (children val c ss).flatMap f, lo ≤ key' a ∧ key' a < hi := by
  induction ss generalizing lo c with
  | nil =>
    rw [children, List.map_nil, List.flatMap_singleton]
    exact hP hs
  | cons s ss ih =>
    obtain ⟨hp, hb⟩ := hP hs.1
    obtain ⟨hp', hb'⟩ := ih hs.2
    have hfirst := hlt hs.1
    have hrest := hs.2.lt hlt
    have hkids : (children val c (s :: ss)).flatMap f =
        f c ++ (children val (val s) ss).flatMap f := rfl
    rw [hkids]
    constructor
    · refine List.pairwise_append.mpr ⟨hp, hp', fun a ha b hb'' => ?_⟩
      exact hr ((hb a ha).2.trans_le (hb' b hb'').1)
    · intro a ha
      rcases List.mem_append.mp ha with ha | ha
      · exact ⟨(hb a ha).1, (hb a ha).2.trans hrest⟩
      · exact ⟨hfirst.le.trans (hb' a ha).1, (hb' a ha).2⟩

/-- The outer bounds of a span may be widened when those of its children may. -/
theorem Span.mono (hP : ∀ (lo lo' hi hi' : κ) (x : γ), lo' ≤ lo → hi ≤ hi' → P lo hi x →
    P lo' hi' x) {lo lo' hi hi' : κ} {c : γ} {ss : List α} (hlo : lo' ≤ lo) (hhi : hi ≤ hi')
    (hs : Span key val P lo c ss hi) : Span key val P lo' c ss hi' := by
  induction ss generalizing lo lo' c with
  | nil => exact hP _ _ _ _ _ hlo hhi hs
  | cons s ss ih => exact ⟨hP _ _ _ _ _ hlo le_rfl hs.1, ih le_rfl hs.2⟩

end Laboratory.Separators
