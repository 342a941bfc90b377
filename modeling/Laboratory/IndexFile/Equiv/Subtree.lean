import Laboratory.Algorithm.Separators
import Laboratory.IndexFile.Equiv.NodeIO
import Mathlib.Data.List.Flatten

/-!
# The tree below a block

What the blocks of the file mean as a tree of a given depth: the blocks of the tree below a block
(`treeBlocks`), their ids (`treeIds`), its leaves from left to right (`treeLeaves`) and the
entries in them (`treeEntries`).  `Ordered` is the search-tree order with all bounds, `Chain`
the walk along the `next` links.  All of them depend on the blocks of the tree only
(`treeIds_congr`, `ordered_congr`, `chain_congr`).
-/

namespace Laboratory.IndexFile

/-- The children of an internal node, from left to right. -/
def InternalNode.children (node : InternalNode) : List ℤ :=
  Separators.children Entry.value node.firstChild node.separators

namespace BPlusTree

variable {β : Type} [IntCodec β]

/-! ### The blocks, the leaves and the entries of a tree -/

/-- The blocks of the tree of depth `d` below block `b`, each with its height. -/
def treeBlocks (t : BPlusTree β) : ℕ → ℤ → List (ℕ × ℤ)
  | 0, b => [(0, b)]
  | d + 1, b => (d + 1, b) :: (t.readInternal b).children.flatMap (t.treeBlocks d)

/-- The ids of the blocks of the tree of depth `d` below block `b`. -/
def treeIds (t : BPlusTree β) : ℕ → ℤ → List ℤ
  | 0, b => [b]
  | d + 1, b => b :: (t.readInternal b).children.flatMap (t.treeIds d)

/-- The leaves of the tree of depth `d` below block `b`, from left to right. -/
def treeLeaves (t : BPlusTree β) : ℕ → ℤ → List ℤ
  | 0, b => [b]
  | d + 1, b => (t.readInternal b).children.flatMap (t.treeLeaves d)

/-- The entries in the leaves of the tree of depth `d` below block `b`. -/
def treeEntries (t : BPlusTree β) (d : ℕ) (b : ℤ) : List Entry :=
  (t.treeLeaves d b).flatMap fun l => (t.readLeaf l).entries

/-- The tree of depth `d` below block `b` is a search tree for the keys in `[lo, hi)`: keys and
separators increase strictly, no node holds more than `capacity_` of them, each child keeps to
the interval its separators leave to it, and the blocks are laid out by their height. -/
def Ordered (t : BPlusTree β) : ℕ → ℤ → ℤ → ℤ → Prop
  | 0, lo, hi, b =>
    lo < hi ∧ (t.readLeaf b).entries.Pairwise (fun x y => x.key < y.key) ∧
      (∀ e ∈ (t.readLeaf b).entries, lo ≤ e.key ∧ e.key < hi) ∧
      ((t.readLeaf b).entries.length : ℤ) ≤ t.capacity_ ∧
      t.binFile_.layout (t.blockOffset b) = some .leaf
  | d + 1, lo, hi, b =>
    Separators.Span Entry.key Entry.value (t.Ordered d) lo (t.readInternal b).firstChild
        (t.readInternal b).separators hi ∧
      ((t.readInternal b).separators.length : ℤ) ≤ t.capacity_ ∧
      t.binFile_.layout (t.blockOffset b) = some .internal

/-- The separators of the tree of depth `d` below block `b` cut the interval `[lo, hi)` into an
interval for every leaf, and `Q` holds of each leaf and its interval. -/
def OrderedBy (t : BPlusTree β) (Q : ℤ → ℤ → List Entry → Prop) : ℕ → ℤ → ℤ → ℤ → Prop
  | 0, lo, hi, b =>
    lo < hi ∧ Q lo hi (t.readLeaf b).entries ∧ t.binFile_.layout (t.blockOffset b) = some .leaf
  | d + 1, lo, hi, b =>
    Separators.Span Entry.key Entry.value (t.OrderedBy Q d) lo (t.readInternal b).firstChild
        (t.readInternal b).separators hi ∧
      t.binFile_.layout (t.blockOffset b) = some .internal

/-- The entries of a leaf that keeps distinct keys from `[lo, hi)` in order. -/
def Increasing (lo hi : ℤ) (es : List Entry) : Prop :=
  es.Pairwise (fun x y => x.key < y.key) ∧ ∀ e ∈ es, lo ≤ e.key ∧ e.key < hi

/-- The entries of a leaf that keeps keys from `[lo, hi)` in order, some of them repeated. -/
def Nondecreasing (lo hi : ℤ) (es : List Entry) : Prop :=
  es.Pairwise (fun x y => x.key ≤ y.key) ∧ ∀ e ∈ es, lo ≤ e.key ∧ e.key < hi

/-- Following `next` from block `a` visits the leaves `ls` and arrives at `z`. -/
def Chain (t : BPlusTree β) : ℤ → List ℤ → ℤ → Prop
  | a, [], z => a = z
  | a, l :: ls, z => a = l ∧ t.Chain (t.readLeaf l).next ls z

/-! ### First facts -/

variable {t t' : BPlusTree β}

theorem mem_treeIds_self (t : BPlusTree β) (d : ℕ) (b : ℤ) : b ∈ t.treeIds d b := by
  cases d <;> simp [treeIds]

theorem treeIds_child {d : ℕ} {b c j : ℤ} (hc : c ∈ (t.readInternal b).children)
    (hj : j ∈ t.treeIds d c) : j ∈ t.treeIds (d + 1) b :=
  List.mem_cons_of_mem _ (List.mem_flatMap.mpr ⟨c, hc, hj⟩)

theorem treeBlocks_map_snd (t : BPlusTree β) (d : ℕ) (b : ℤ) :
    (t.treeBlocks d b).map Prod.snd = t.treeIds d b := by
  induction d generalizing b with
  | zero => rfl
  | succ d ih => simp only [treeBlocks, treeIds, List.map_cons, List.map_flatMap, ih]

theorem treeEntries_succ (t : BPlusTree β) (d : ℕ) (b : ℤ) :
    t.treeEntries (d + 1) b = (t.readInternal b).children.flatMap (t.treeEntries d) := by
  simp only [treeEntries, treeLeaves, List.flatMap_assoc]
  rfl

theorem Ordered.lt {d : ℕ} {lo hi b : ℤ} (h : t.Ordered d lo hi b) : lo < hi := by
  induction d generalizing lo hi b with
  | zero => exact h.1
  | succ d ih => exact h.1.lt ih

/-! ### Trees ordered by a property of their leaves -/

variable {Q Q' : ℤ → ℤ → List Entry → Prop} {d : ℕ} {lo hi b k : ℤ}

theorem OrderedBy.lt (h : t.OrderedBy Q d lo hi b) : lo < hi := by
  induction d generalizing lo hi b with
  | zero => exact h.1
  | succ d ih => exact h.1.lt ih

theorem OrderedBy.imp (hQ : ∀ lo hi es, Q lo hi es → Q' lo hi es) (h : t.OrderedBy Q d lo hi b) :
    t.OrderedBy Q' d lo hi b := by
  induction d generalizing lo hi b with
  | zero => exact ⟨h.1, hQ _ _ _ h.2.1, h.2.2⟩
  | succ d ih => exact ⟨h.1.imp fun _ _ _ _ hc => ih hc, h.2⟩

/-- The leaves may be given another property on intervals within the bounds of the tree. -/
theorem OrderedBy.imp_within
    (h : ∀ lo' hi' es, lo ≤ lo' → hi' ≤ hi → Q lo' hi' es → Q' lo' hi' es)
    (ho : t.OrderedBy Q d lo hi b) : t.OrderedBy Q' d lo hi b := by
  induction d generalizing lo hi b with
  | zero => exact ⟨ho.1, h _ _ _ le_rfl le_rfl ho.2.1, ho.2.2⟩
  | succ d ih =>
    refine ⟨ho.1.imp_within OrderedBy.lt fun lo' hi' x hlo hhi hx => ?_, ho.2⟩
    exact ih (fun lo'' hi'' es hlo' hhi' => h lo'' hi'' es (hlo.trans hlo') (hhi'.trans hhi)) hx

/-- The bounds of a tree may be widened when those of its leaves may. -/
theorem OrderedBy.mono (hQ : ∀ lo lo' hi hi' es, lo' ≤ lo → hi ≤ hi' → Q lo hi es → Q lo' hi' es)
    {lo' hi' : ℤ} (hlo : lo' ≤ lo) (hhi : hi ≤ hi') (h : t.OrderedBy Q d lo hi b) :
    t.OrderedBy Q d lo' hi' b := by
  induction d generalizing lo lo' hi hi' b with
  | zero => exact ⟨(hlo.trans_lt h.1).trans_le hhi, hQ _ _ _ _ _ hlo hhi h.2.1, h.2.2⟩
  | succ d ih =>
    refine ⟨Separators.Span.mono ?_ hlo hhi h.1, h.2⟩
    exact fun lo lo' hi hi' x h1 h2 h3 => ih h1 h2 h3

/-- The entries of a tree are in order when those of its leaves are, within their intervals. -/
theorem OrderedBy.treeEntries {r : Entry → Entry → Prop} (hr : ∀ {x y}, x.key < y.key → r x y)
    (hQ : ∀ {lo hi es}, Q lo hi es → es.Pairwise r ∧ ∀ e ∈ es, lo ≤ e.key ∧ e.key < hi)
    (h : t.OrderedBy Q d lo hi b) :
    (t.treeEntries d b).Pairwise r ∧ ∀ e ∈ t.treeEntries d b, lo ≤ e.key ∧ e.key < hi := by
  induction d generalizing lo hi b with
  | zero =>
    rw [BPlusTree.treeEntries, treeLeaves, List.flatMap_singleton]
    exact hQ h.2.1
  | succ d ih =>
    rw [treeEntries_succ]
    exact h.1.flatMap (P := t.OrderedBy Q d) hr (fun ho => ih ho) OrderedBy.lt

theorem Increasing.nondecreasing {es : List Entry} (h : Increasing lo hi es) :
    Nondecreasing lo hi es :=
  ⟨h.1.imp le_of_lt, h.2⟩

theorem Ordered.orderedBy (h : t.Ordered d lo hi b) : t.OrderedBy Increasing d lo hi b := by
  induction d generalizing lo hi b with
  | zero => exact ⟨h.1, ⟨h.2.1, h.2.2.1⟩, h.2.2.2.2⟩
  | succ d ih => exact ⟨h.1.imp fun _ _ _ _ hc => ih hc, h.2.2⟩

/-- **The entries of an ordered tree** are strictly sorted and within its bounds. -/
theorem Ordered.treeEntries (h : t.Ordered d lo hi b) :
    (t.treeEntries d b).Pairwise (fun x y => x.key < y.key) ∧
      ∀ e ∈ t.treeEntries d b, lo ≤ e.key ∧ e.key < hi :=
  h.orderedBy.treeEntries id id

/-- A tree with increasing leaves is a search tree. -/
theorem ordered_iff (g : t.Geometry) : t.Ordered d lo hi b ↔ t.OrderedBy Increasing d lo hi b := by
  refine ⟨Ordered.orderedBy, fun h => ?_⟩
  induction d generalizing lo hi b with
  | zero => exact ⟨h.1, h.2.1.1, h.2.1.2, length_readLeaf_le g b, h.2.2⟩
  | succ d ih =>
    exact ⟨h.1.imp fun _ _ _ _ hc => ih hc, length_readInternal_le g b, h.2⟩

theorem treeLeaves_sublist (t : BPlusTree β) (d : ℕ) (b : ℤ) :
    (t.treeLeaves d b).Sublist (t.treeIds d b) := by
  induction d generalizing b with
  | zero => exact List.Sublist.refl _
  | succ d ih => exact (List.Sublist.flatMap_right _ fun c _ => ih c).cons b

/-! ### A tree depends on its blocks only -/

theorem treeLeaves_congr {d : ℕ} {b : ℤ} (h : ∀ j ∈ t.treeIds d b, SameBlock t t' j) :
    t'.treeLeaves d b = t.treeLeaves d b := by
  induction d generalizing b with
  | zero => rfl
  | succ d ih =>
    simp only [treeLeaves, (h b (mem_treeIds_self ..)).internal]
    exact List.flatMap_congr fun c hc => ih fun j hj => h j (treeIds_child hc hj)

theorem treeIds_congr {d : ℕ} {b : ℤ} (h : ∀ j ∈ t.treeIds d b, SameBlock t t' j) :
    t'.treeIds d b = t.treeIds d b := by
  induction d generalizing b with
  | zero => rfl
  | succ d ih =>
    simp only [treeIds, (h b (mem_treeIds_self ..)).internal]
    congr 1
    exact List.flatMap_congr fun c hc => ih fun j hj => h j (treeIds_child hc hj)

theorem treeEntries_congr {d : ℕ} {b : ℤ} (h : ∀ j ∈ t.treeIds d b, SameBlock t t' j) :
    t'.treeEntries d b = t.treeEntries d b := by
  unfold treeEntries
  rw [treeLeaves_congr h]
  exact List.flatMap_congr fun l hl => by rw [(h l ((treeLeaves_sublist ..).subset hl)).leaf]

theorem orderedBy_congr {Q : ℤ → ℤ → List Entry → Prop} {d : ℕ} {lo hi b : ℤ}
    (h : ∀ j ∈ t.treeIds d b, SameBlock t t' j) (ho : t.OrderedBy Q d lo hi b) :
    t'.OrderedBy Q d lo hi b := by
  have hb := h b (mem_treeIds_self ..)
  induction d generalizing lo hi b with
  | zero =>
    simp only [OrderedBy, hb.leaf, hb.layout] at ho ⊢
    exact ho
  | succ d ih =>
    simp only [OrderedBy, hb.internal, hb.layout] at ho ⊢
    refine ⟨ho.1.imp fun lo hi c hc hoc => ?_, ho.2⟩
    have hsub : ∀ j ∈ t.treeIds d c, SameBlock t t' j := fun j hj => h j (treeIds_child hc hj)
    exact ih hsub hoc (hsub c (mem_treeIds_self ..))

/-! ### Chains -/

theorem chain_append {a z : ℤ} {ls ms : List ℤ} :
    t.Chain a (ls ++ ms) z ↔ ∃ m, t.Chain a ls m ∧ t.Chain m ms z := by
  induction ls generalizing a with
  | nil => simp [Chain]
  | cons l ls ih => simp only [List.cons_append, Chain, ih, and_assoc, exists_and_left]

theorem chain_congr {a z : ℤ} {ls : List ℤ} (h : ∀ l ∈ ls, SameBlock t t' l)
    (hc : t.Chain a ls z) : t'.Chain a ls z := by
  induction ls generalizing a with
  | nil => exact hc
  | cons l ls ih =>
    refine ⟨hc.1, ?_⟩
    rw [(h l (List.mem_cons_self ..)).leaf]
    exact ih (fun x hx => h x (List.mem_cons_of_mem _ hx)) hc.2

/-! ### The entries along a chain -/

/-- The entries of successive leaves. -/
def leafEntries (t : BPlusTree β) (ls : List ℤ) : List Entry :=
  ls.flatMap fun l => (t.readLeaf l).entries

theorem leafEntries_append_cons (t : BPlusTree β) (A B : List ℤ) (l : ℤ) :
    t.leafEntries (A ++ l :: B) =
      t.leafEntries A ++ ((t.readLeaf l).entries ++ t.leafEntries B) := by
  rw [leafEntries, List.flatMap_append, List.flatMap_cons]
  rfl

theorem leafEntries_congr {ls : List ℤ} (h : ∀ l ∈ ls, SameBlock t t' l) :
    t'.leafEntries ls = t.leafEntries ls :=
  List.flatMap_congr fun l hl => by rw [(h l hl).leaf]

end BPlusTree

end Laboratory.IndexFile
