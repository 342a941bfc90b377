import Laboratory.IndexFile.BPlusTree
import Laboratory.IndexFile.Equiv.BinFile
import Mathlib.Algebra.Order.Ring.Int
import Mathlib.Data.List.TakeWhile

/-!
# Nodes survive being written and read back

`readLeaf_writeLeaf` and `readInternal_writeInternal`: a node of at most `capacity_` entries with
non-zero keys is read back as it was written.  `SameBlock` says that a block of two trees reads
the same; `sameBlock_writeLeaf` and `sameBlock_writeInternal` are the frame of a write, and
`sameBlock_writeMetadata` that of the header.  All of it rests on the offset arithmetic of
`Geometry`: a node fills `4 + 8 · capacity_` bytes of its block.
-/

namespace Laboratory.IndexFile

/-! ### The `int`s of a list of entries -/

@[simp] theorem Entry.ints_length (es : List Entry) : (Entry.ints es).length = 2 * es.length := by
  induction es with
  | nil => rfl
  | cons e es ih => simp only [Entry.ints, List.flatMap_cons, List.length_append] at ih ⊢
                    simp [ih]; omega

theorem Entry.ints_getElem? (es : List Entry) (i : ℕ) :
    (Entry.ints es)[2 * i]? = es[i]?.map Entry.key ∧
      (Entry.ints es)[2 * i + 1]? = es[i]?.map Entry.value := by
  induction es generalizing i with
  | nil => simp [Entry.ints]
  | cons e es ih =>
    have hcons : Entry.ints (e :: es) = e.key :: e.value :: Entry.ints es := rfl
    cases i with
    | zero => simp [hcons]
    | succ i =>
      obtain ⟨hk, hv⟩ := ih i
      have h1 : 2 * (i + 1) = 2 * i + 1 + 1 := by omega
      simp only [hcons, h1, List.getElem?_cons_succ, hk, hv, and_self]

/-- Both components of every entry fit into the file. -/
def Entry.AllInRange (β : Type) [IntCodec β] (es : List Entry) : Prop :=
  ∀ e ∈ es, IntCodec.InRange β e.key ∧ IntCodec.InRange β e.value

instance [IntCodec β] [DecidablePred (IntCodec.InRange β)] (es : List Entry) :
    Decidable (Entry.AllInRange β es) :=
  inferInstanceAs (Decidable (∀ e ∈ es, IntCodec.InRange β e.key ∧ IntCodec.InRange β e.value))

theorem Entry.inRange_ints {β : Type} [IntCodec β] {es : List Entry}
    (h : Entry.AllInRange β es) : ∀ v ∈ Entry.ints es, IntCodec.InRange β v := by
  intro v hv
  obtain ⟨e, he, hve⟩ := List.mem_flatMap.mp hv
  rcases List.mem_cons.mp hve with rfl | hve
  · exact (h e he).1
  · rw [List.mem_singleton.mp hve]
    exact (h e he).2

/-- The `i`-th slot of a node written as `es` followed by zeros. -/
theorem Entry.ints_padded_getElem? (es : List Entry) (n : ℕ) (tail : List ℤ) {i : ℕ}
    (hi : i < es.length + (n - es.length)) :
    (Entry.ints es ++ List.replicate (2 * (n - es.length)) 0 ++ tail)[2 * i]? =
        (es ++ List.replicate (n - es.length) ({} : Entry))[i]?.map Entry.key ∧
      (Entry.ints es ++ List.replicate (2 * (n - es.length)) 0 ++ tail)[2 * i + 1]? =
        (es ++ List.replicate (n - es.length) ({} : Entry))[i]?.map Entry.value := by
  have hlen : (Entry.ints es).length = 2 * es.length := Entry.ints_length es
  have hall : 2 * i + 1 <
      (Entry.ints es ++ List.replicate (2 * (n - es.length)) (0 : ℤ)).length := by
    simp; omega
  obtain ⟨hk, hv⟩ := Entry.ints_getElem? es i
  rw [List.getElem?_append_left (by omega), List.getElem?_append_left hall]
  by_cases hlt : i < es.length
  · have hes : (es ++ List.replicate (n - es.length) ({} : Entry))[i]? = es[i]? :=
      List.getElem?_append_left hlt
    rw [hes, List.getElem?_append_left (by omega), List.getElem?_append_left (by omega)]
    exact ⟨hk, hv⟩
  · -- past the entries both sides are the zero padding
    have hpad : (es ++ List.replicate (n - es.length) ({} : Entry))[i]? = some {} := by
      rw [List.getElem?_append_right (by omega), List.getElem?_replicate_of_lt (by omega)]
    rw [hpad, List.getElem?_append_right (by omega), List.getElem?_append_right (by omega),
      List.getElem?_replicate_of_lt (by omega), List.getElem?_replicate_of_lt (by omega)]
    exact ⟨rfl, rfl⟩

namespace BPlusTree

variable {β : Type} [IntCodec β] {t t' : BPlusTree β}

/-! ### The geometry of the file -/

/-- The capacity is the one `getMetadata` derives from the block size, and not zero. -/
structure Geometry (t : BPlusTree β) : Prop where
  capacity_eq : t.capacity_ = (t.blockSize_ - UNIT).tdiv (2 * UNIT)
  capacity_pos : 1 ≤ t.capacity_

omit [IntCodec β] in
/-- A node fills its block up to fewer than eight bytes. -/
theorem Geometry.blockSize_bounds (g : t.Geometry) :
    4 + 8 * t.capacity_ ≤ t.blockSize_ ∧ t.blockSize_ < 12 + 8 * t.capacity_ := by
  have hcap := g.capacity_eq
  have hpos := g.capacity_pos
  unfold UNIT at hcap
  have hnn : 0 ≤ t.blockSize_ - 4 := by
    by_contra hneg
    have hle : (t.blockSize_ - 4).tdiv (2 * 4) ≤ 0 := by
      rw [← Int.neg_neg (t.blockSize_ - 4), Int.neg_tdiv,
        Int.tdiv_eq_ediv_of_nonneg (by omega)]
      omega
    omega
  rw [Int.tdiv_eq_ediv_of_nonneg hnn] at hcap
  omega

omit [IntCodec β] in
/-- The part of block `b` that is in use and the one of block `b'` do not overlap. -/
theorem Geometry.blockOffset_disjoint (g : t.Geometry) {b b' : ℤ} (h : b ≠ b') :
    t.blockOffset b + UNIT + 2 * UNIT * t.capacity_ ≤ t.blockOffset b' ∨
      t.blockOffset b' + UNIT + 2 * UNIT * t.capacity_ ≤ t.blockOffset b := by
  obtain ⟨hbs, -⟩ := g.blockSize_bounds
  have hpos := g.capacity_pos
  unfold blockOffset UNIT
  rcases lt_or_gt_of_ne h with hlt | hlt
  · left
    have := mul_le_mul_of_nonneg_right (show b - 1 + 1 ≤ b' - 1 by omega)
      (show 0 ≤ t.blockSize_ by omega)
    rw [add_mul, one_mul] at this
    omega
  · right
    have := mul_le_mul_of_nonneg_right (show b' - 1 + 1 ≤ b - 1 by omega)
      (show 0 ≤ t.blockSize_ by omega)
    rw [add_mul, one_mul] at this
    omega

omit [IntCodec β] in
/-- Every block starts after the header. -/
theorem Geometry.header_le_blockOffset (g : t.Geometry) {b : ℤ} (h : 1 ≤ b) :
    HEADER_SIZE ≤ t.blockOffset b := by
  obtain ⟨hbs, -⟩ := g.blockSize_bounds
  have hpos := g.capacity_pos
  have := mul_nonneg (show 0 ≤ b - 1 by omega) (show 0 ≤ t.blockSize_ by omega)
  unfold blockOffset
  omega

omit [IntCodec β] in
theorem Geometry.splitIndex_bounds (g : t.Geometry) :
    1 ≤ t.splitIndex.toNat ∧ (t.splitIndex.toNat : ℤ) ≤ t.capacity_ := by
  have hpos := g.capacity_pos
  unfold splitIndex
  rw [Int.tdiv_eq_ediv_of_nonneg (by omega)]
  omega

/-! ### Reading a node back -/

/-- The entries that a leaf shows: key `0` marks a slot that is not used. -/
def live (es : List Entry) : List Entry := es.filter fun e => e.key ≠ 0

/-- The separators that an internal node shows: key `0` ends them. -/
def visible (es : List Entry) : List Entry := es.takeWhile fun e => e.key ≠ 0

theorem live_eq_self {es : List Entry} (h : ∀ e ∈ es, e.key ≠ 0) : live es = es :=
  List.filter_eq_self.mpr (by simpa using h)

theorem visible_eq_self {es : List Entry} (h : ∀ e ∈ es, e.key ≠ 0) : visible es = es :=
  List.takeWhile_eq_self_iff.mpr (by simpa using h)

theorem mem_of_mem_visible {es : List Entry} {e : Entry} (h : e ∈ visible es) : e ∈ es :=
  (List.takeWhile_sublist _).subset h

theorem visible_append_zeros (es : List Entry) (n : ℕ) :
    (es ++ List.replicate n ({} : Entry)).takeWhile (fun e => e.key ≠ 0) = visible es := by
  induction es with
  | nil => cases n <;> simp [visible, List.replicate_succ]
  | cons e es ih =>
    rw [visible, List.cons_append, List.takeWhile_cons, List.takeWhile_cons]
    split_ifs with h
    · rw [ih, visible]
    · rfl

/-- The slots of a file in which, from `pos` on, the entries `es` and zeros were written. -/
theorem readSlots_writeInts (g : t.Geometry) (f : BinFile β) (pos : ℤ) (lead tail : List ℤ)
    {es : List Entry} (hes : (es.length : ℤ) ≤ t.capacity_)
    (hf : ∀ q, t.binFile_.readInt q =
      (f.writeInts pos (lead ++ (Entry.ints es ++ t.padding es.length ++ tail))).readInt q)
    (hrange : ∀ v ∈ lead ++ (Entry.ints es ++ t.padding es.length ++ tail),
      IntCodec.InRange β v) :
    t.readSlots (pos + UNIT * lead.length) =
      es ++ List.replicate (t.capacity_.toNat - es.length) ({} : Entry) := by
  have hpos := g.capacity_pos
  apply List.ext_getElem
  · simp [readSlots]; omega
  intro i hi hi'
  have hicap : i < t.capacity_.toNat := by simpa [readSlots] using hi
  obtain ⟨hk, hv⟩ := Entry.ints_padded_getElem? es t.capacity_.toNat tail (i := i) (by omega)
  rw [List.getElem?_eq_getElem hi'] at hk hv
  change (Entry.ints es ++ t.padding es.length ++ tail)[2 * i]? = some _ at hk
  change (Entry.ints es ++ t.padding es.length ++ tail)[2 * i + 1]? = some _ at hv
  have hlen : 2 * i + 1 < (Entry.ints es ++ t.padding es.length ++ tail).length := by
    simp [padding]; omega
  have hread : ∀ j (hj : j < (Entry.ints es ++ t.padding es.length ++ tail).length),
      t.binFile_.readInt (pos + UNIT * lead.length + UNIT * j) =
        (Entry.ints es ++ t.padding es.length ++ tail)[j] := by
    intro j hj
    have hoff : pos + UNIT * lead.length + UNIT * j = pos + UNIT * ((lead.length + j : ℕ) : ℤ) := by
      push_cast; ring
    rw [hoff, hf, BinFile.readInt_writeInts_getElem f pos _ hrange _ (by simp at hj ⊢; omega),
      List.getElem_append_right (by omega)]
    simp
  have hkey := hread (2 * i) (by omega)
  have hval := hread (2 * i + 1) hlen
  rw [(List.getElem_eq_iff _).mpr hk] at hkey
  rw [(List.getElem_eq_iff _).mpr hv] at hval
  simp only [readSlots, List.getElem_map, List.getElem_range, readEntry]
  have hoffk : pos + UNIT * lead.length + 2 * UNIT * (i : ℤ) =
      pos + UNIT * lead.length + UNIT * ((2 * i : ℕ) : ℤ) := by push_cast; ring
  have hoffv : pos + UNIT * lead.length + 2 * UNIT * (i : ℤ) + UNIT =
      pos + UNIT * lead.length + UNIT * ((2 * i + 1 : ℕ) : ℤ) := by push_cast; ring
  rw [hoffv, hoffk, hkey, hval]

theorem inRange_padding (t : BPlusTree β) (n : ℕ) :
    ∀ v ∈ t.padding n, IntCodec.InRange β v := by
  intro v hv
  rw [List.eq_of_mem_replicate hv]
  exact IntCodec.inRange_zero

omit [IntCodec β] in
/-- The `int`s of a leaf fill the part of the block that is in use. -/
theorem leafInts_length (g : t.Geometry) {es : List Entry} (next : ℤ)
    (hes : (es.length : ℤ) ≤ t.capacity_) :
    ((Entry.ints es ++ t.padding es.length ++ [next]).length : ℤ) = 1 + 2 * t.capacity_ := by
  have hpos := g.capacity_pos
  simp [padding]
  omega

omit [IntCodec β] in
/-- The `int`s of an internal node fill the same part of the block. -/
theorem internalInts_length (g : t.Geometry) {es : List Entry} (firstChild : ℤ)
    (hes : (es.length : ℤ) ≤ t.capacity_) :
    ((firstChild :: (Entry.ints es ++ t.padding es.length)).length : ℤ) =
      1 + 2 * t.capacity_ := by
  have hpos := g.capacity_pos
  simp [padding]
  omega

/-- **A leaf is read back as it was written**, less the entries with key `0`. -/
theorem readLeaf_writeLeaf_live (g : t.Geometry) (b : ℤ) {es : List Entry} {next : ℤ}
    (hlen : (es.length : ℤ) ≤ t.capacity_) (hes : Entry.AllInRange β es)
    (hnext : IntCodec.InRange β next) :
    (t.writeLeaf b es next).readLeaf b = ⟨live es, next⟩ := by
  have hrange : ∀ v ∈ [] ++ (Entry.ints es ++ t.padding es.length ++ [next]),
      IntCodec.InRange β v := by
    intro v hv
    simp only [List.nil_append, List.mem_append, List.mem_singleton] at hv
    rcases hv with (hv | hv) | rfl
    · exact Entry.inRange_ints hes v hv
    · exact inRange_padding t _ v hv
    · exact hnext
  have hslots : (t.writeLeaf b es next).readSlots (t.blockOffset b) =
      es ++ List.replicate (t.capacity_.toNat - es.length) ({} : Entry) := by
    have := readSlots_writeInts (t := t.writeLeaf b es next) ⟨g.1, g.2⟩ t.binFile_
      (t.blockOffset b) [] [next] hlen (fun _ => rfl) hrange
    simpa [writeLeaf] using this
  have hlast : (t.writeLeaf b es next).binFile_.readInt
      (t.blockOffset b + 2 * UNIT * t.capacity_) = next := by
    have hpos := g.capacity_pos
    have hidx : 2 * t.capacity_.toNat <
        (Entry.ints es ++ t.padding es.length ++ [next]).length := by
      have := leafInts_length g next hlen
      omega
    have hoff : t.blockOffset b + 2 * UNIT * t.capacity_ =
        t.blockOffset b + UNIT * ((2 * t.capacity_.toNat : ℕ) : ℤ) := by
      unfold UNIT
      omega
    rw [hoff, writeLeaf, BinFile.readInt_mark,
      BinFile.readInt_writeInts_getElem _ _ _ (by simpa using hrange) _ hidx,
      List.getElem_append_right (by simp [padding]; omega)]
    simp
  unfold readLeaf
  have hoff : (t.writeLeaf b es next).blockOffset b = t.blockOffset b := rfl
  have hcap : (t.writeLeaf b es next).capacity_ = t.capacity_ := rfl
  rw [hoff, hcap, hslots, hlast, List.filter_append, live]
  simp

/-- **An internal node is read back as it was written**, up to the first separator with key `0`. -/
theorem readInternal_writeInternal_visible (g : t.Geometry) (b : ℤ) {firstChild : ℤ}
    {es : List Entry} (hlen : (es.length : ℤ) ≤ t.capacity_) (hes : Entry.AllInRange β es)
    (hfirst : IntCodec.InRange β firstChild) :
    (t.writeInternal b firstChild es).readInternal b = ⟨firstChild, visible es⟩ := by
  have hrange : ∀ v ∈ [firstChild] ++ (Entry.ints es ++ t.padding es.length ++ []),
      IntCodec.InRange β v := by
    intro v hv
    simp only [List.append_nil, List.mem_append, List.mem_singleton] at hv
    rcases hv with rfl | hv | hv
    · exact hfirst
    · exact Entry.inRange_ints hes v hv
    · exact inRange_padding t _ v hv
  have hslots : (t.writeInternal b firstChild es).readSlots (t.blockOffset b + UNIT) =
      es ++ List.replicate (t.capacity_.toNat - es.length) ({} : Entry) := by
    have := readSlots_writeInts (t := t.writeInternal b firstChild es) ⟨g.1, g.2⟩ t.binFile_
      (t.blockOffset b) [firstChild] [] hlen (fun _ => by rw [List.append_nil]; rfl) hrange
    simpa [writeInternal] using this
  have hhead : (t.writeInternal b firstChild es).binFile_.readInt (t.blockOffset b) =
      firstChild := by
    have := BinFile.readInt_writeInts_getElem t.binFile_ (t.blockOffset b)
      (firstChild :: (Entry.ints es ++ t.padding es.length)) (by simpa using hrange) 0 (by simp)
    simpa [writeInternal] using this
  unfold readInternal
  have hoff : (t.writeInternal b firstChild es).blockOffset b = t.blockOffset b := rfl
  rw [hoff, hslots, hhead, visible_append_zeros]

/-! ### What a write leaves alone -/

/-- Block `b` reads the same in both trees, under either layout. -/
structure SameBlock (t t' : BPlusTree β) (b : ℤ) : Prop where
  leaf : t'.readLeaf b = t.readLeaf b
  internal : t'.readInternal b = t.readInternal b
  layout : t'.binFile_.layout (t'.blockOffset b) = t.binFile_.layout (t.blockOffset b)

theorem SameBlock.refl (t : BPlusTree β) (b : ℤ) : SameBlock t t b := ⟨rfl, rfl, rfl⟩

theorem SameBlock.trans {t t' t'' : BPlusTree β} {b : ℤ} (h : SameBlock t t' b)
    (h' : SameBlock t' t'' b) : SameBlock t t'' b :=
  ⟨h'.leaf.trans h.leaf, h'.internal.trans h.internal, h'.layout.trans h.layout⟩

/-- Two trees over the same geometry whose files agree on the used part of a block. -/
theorem sameBlock_of_bytes (g : t.Geometry) (t' : BPlusTree β)
    (hbs : t'.blockSize_ = t.blockSize_) (hcap : t'.capacity_ = t.capacity_) {b : ℤ}
    (hbyte : ∀ o, t.blockOffset b ≤ o → o < t.blockOffset b + UNIT + 2 * UNIT * t.capacity_ →
      t'.binFile_.byte o = t.binFile_.byte o)
    (hlay : t'.binFile_.layout (t.blockOffset b) = t.binFile_.layout (t.blockOffset b)) :
    SameBlock t t' b := by
  have hpos := g.capacity_pos
  have hoff : t'.blockOffset b = t.blockOffset b := by unfold blockOffset; rw [hbs]
  have hread : ∀ q, t.blockOffset b ≤ q → q + UNIT ≤ t.blockOffset b + UNIT +
      2 * UNIT * t.capacity_ → t'.binFile_.readInt q = t.binFile_.readInt q :=
    fun q h1 h2 => BinFile.readInt_congr fun o ho ho' => hbyte o (by omega) (by omega)
  have hslots : ∀ p, t.blockOffset b ≤ p → p ≤ t.blockOffset b + UNIT →
      t'.readSlots p = t.readSlots p := by
    intro p h1 h2
    unfold readSlots
    rw [hcap]
    refine List.map_congr_left fun i hi => ?_
    have hi' := List.mem_range.mp hi
    unfold readEntry
    rw [hread _ (by unfold UNIT; omega) (by unfold UNIT at *; omega),
      hread _ (by unfold UNIT; omega) (by unfold UNIT at *; omega)]
  refine ⟨?_, ?_, by rw [hoff, hlay]⟩
  · unfold readLeaf
    rw [hoff, hcap, hslots _ le_rfl (by unfold UNIT; omega),
      hread _ (by unfold UNIT; omega) (by unfold UNIT; omega)]
  · unfold readInternal
    rw [hoff, hslots _ (by unfold UNIT; omega) le_rfl,
      hread _ le_rfl (by unfold UNIT; omega)]

omit [IntCodec β] in
theorem Geometry.blockOffset_ne (g : t.Geometry) {b b' : ℤ} (h : b ≠ b') :
    t.blockOffset b ≠ t.blockOffset b' := by
  have hpos := g.capacity_pos
  rcases g.blockOffset_disjoint h with hd | hd <;> unfold UNIT at hd <;> omega

/-- Writing a leaf leaves every other block alone. -/
theorem sameBlock_writeLeaf (g : t.Geometry) {b b' : ℤ} (h : b' ≠ b) {es : List Entry}
    (next : ℤ) (hlen : (es.length : ℤ) ≤ t.capacity_) :
    SameBlock t (t.writeLeaf b es next) b' := by
  have hints := leafInts_length g next hlen
  refine sameBlock_of_bytes g (t.writeLeaf b es next) rfl rfl (fun o h1 h2 => ?_) ?_
  · refine BinFile.byte_writeInts _ _ _ ?_
    rw [hints]
    rcases g.blockOffset_disjoint h with hd | hd <;> unfold UNIT at * <;> omega
  · simp [writeLeaf, BinFile.mark, Function.update_of_ne (g.blockOffset_ne h)]

/-- Writing an internal node leaves every other block alone. -/
theorem sameBlock_writeInternal (g : t.Geometry) {b b' : ℤ} (h : b' ≠ b) (firstChild : ℤ)
    {es : List Entry} (hlen : (es.length : ℤ) ≤ t.capacity_) :
    SameBlock t (t.writeInternal b firstChild es) b' := by
  have hints := internalInts_length g firstChild hlen
  refine sameBlock_of_bytes g (t.writeInternal b firstChild es) rfl rfl (fun o h1 h2 => ?_) ?_
  · refine BinFile.byte_writeInts _ _ _ ?_
    rw [hints]
    rcases g.blockOffset_disjoint h with hd | hd <;> unfold UNIT at * <;> omega
  · simp [writeInternal, BinFile.mark, Function.update_of_ne (g.blockOffset_ne h)]

/-- The metadata lies before the first block. -/
theorem sameBlock_writeMetadata (g : t.Geometry) {b : ℤ} (h : 1 ≤ b) :
    SameBlock t t.writeMetadata b := by
  have hhead := g.header_le_blockOffset h
  refine sameBlock_of_bytes g t.writeMetadata rfl rfl (fun o h1 h2 => ?_)
    (by rw [writeMetadata, BinFile.layout_writeInts])
  refine BinFile.byte_writeInts _ _ _ ?_
  unfold HEADER_SIZE HEADER_UNITS UNIT at *
  simp only [List.length_cons, List.length_nil]
  omega

/-! ### What is read from the file fits into it -/

theorem inRange_readSlots (t : BPlusTree β) (pos : ℤ) :
    Entry.AllInRange β (t.readSlots pos) := by
  intro e he
  obtain ⟨i, -, rfl⟩ := List.mem_map.mp he
  exact ⟨IntCodec.inRange_decode _, IntCodec.inRange_decode _⟩

theorem inRange_readLeaf (t : BPlusTree β) (b : ℤ) :
    Entry.AllInRange β (t.readLeaf b).entries :=
  fun e he => inRange_readSlots t _ e (List.mem_of_mem_filter he)

theorem inRange_readInternal (t : BPlusTree β) (b : ℤ) :
    Entry.AllInRange β (t.readInternal b).separators :=
  fun e he => inRange_readSlots t _ e ((List.takeWhile_sublist _).subset he)

theorem length_readLeaf_le (g : t.Geometry) (b : ℤ) :
    ((t.readLeaf b).entries.length : ℤ) ≤ t.capacity_ := by
  have hpos := g.capacity_pos
  have hle : (t.readLeaf b).entries.length ≤ (t.readSlots (t.blockOffset b)).length :=
    List.length_filter_le ..
  rw [readSlots, List.length_map, List.length_range] at hle
  omega

theorem length_readInternal_le (g : t.Geometry) (b : ℤ) :
    ((t.readInternal b).separators.length : ℤ) ≤ t.capacity_ := by
  have hpos := g.capacity_pos
  have hle : (t.readInternal b).separators.length ≤
      (t.readSlots (t.blockOffset b + UNIT)).length := (List.takeWhile_sublist _).length_le
  rw [readSlots, List.length_map, List.length_range] at hle
  omega

theorem key_ne_zero_of_mem_readLeaf {b : ℤ} {e : Entry} (he : e ∈ (t.readLeaf b).entries) :
    e.key ≠ 0 := by
  simpa using (List.mem_filter.mp he).2

theorem key_ne_zero_of_mem_readInternal {b : ℤ} {e : Entry}
    (he : e ∈ (t.readInternal b).separators) : e.key ≠ 0 := by
  simpa using List.mem_takeWhile_imp he

/-! ### Two blocks written one after the other -/

theorem layout_writeLeaf (t : BPlusTree β) (b : ℤ) (es : List Entry) (next : ℤ) :
    (t.writeLeaf b es next).binFile_.layout ((t.writeLeaf b es next).blockOffset b) =
      some .leaf := by
  show Function.update _ (t.blockOffset b) _ (t.blockOffset b) = _
  rw [Function.update_self]

theorem layout_writeInternal (t : BPlusTree β) (b firstChild : ℤ) (es : List Entry) :
    (t.writeInternal b firstChild es).binFile_.layout
      ((t.writeInternal b firstChild es).blockOffset b) = some .internal := by
  show Function.update _ (t.blockOffset b) _ (t.blockOffset b) = _
  rw [Function.update_self]

/-- The members that are not about the file do not matter to a block. -/
theorem SameBlock.of_file {j : ℤ} (hbs : t'.blockSize_ = t.blockSize_)
    (hcap : t'.capacity_ = t.capacity_) (hfile : t'.binFile_ = t.binFile_) : SameBlock t t' j := by
  have hslots : ∀ pos, t'.readSlots pos = t.readSlots pos := by
    intro pos
    unfold readSlots readEntry
    rw [hcap, hfile]
  have hoff : t'.blockOffset j = t.blockOffset j := by rw [blockOffset, hbs, blockOffset]
  refine ⟨?_, ?_, by rw [hoff, hfile]⟩
  · rw [readLeaf, hoff, hslots, hfile, hcap, readLeaf]
  · rw [readInternal, hoff, hslots, hfile, readInternal]

/-- The two leaves a leaf is split into are read back, and no other block changed. -/
theorem writeLeaf_writeLeaf (g : t.Geometry) {b b' : ℤ} (h : b ≠ b') {l r : List Entry}
    {next : ℤ} (hl : (l.length : ℤ) ≤ t.capacity_) (hr : (r.length : ℤ) ≤ t.capacity_)
    (hes : Entry.AllInRange β (l ++ r)) (hb' : IntCodec.InRange β b')
    (hnext : IntCodec.InRange β next) :
    ((t.writeLeaf b l b').writeLeaf b' r next).readLeaf b = ⟨live l, b'⟩ ∧
      ((t.writeLeaf b l b').writeLeaf b' r next).readLeaf b' = ⟨live r, next⟩ ∧
      (∀ x ∈ [b, b'], ((t.writeLeaf b l b').writeLeaf b' r next).binFile_.layout
        (t.blockOffset x) = some .leaf) ∧
      ∀ j, j ≠ b → j ≠ b' → SameBlock t ((t.writeLeaf b l b').writeLeaf b' r next) j := by
  have g' : (t.writeLeaf b l b').Geometry := ⟨g.1, g.2⟩
  have hb : SameBlock (t.writeLeaf b l b') ((t.writeLeaf b l b').writeLeaf b' r next) b :=
    sameBlock_writeLeaf g' h next hr
  refine ⟨?_, ?_, ?_, ?_⟩
  · rw [hb.leaf]
    exact readLeaf_writeLeaf_live g b hl (fun x hx => hes x (List.mem_append_left _ hx)) hb'
  · exact readLeaf_writeLeaf_live g' b' hr (fun x hx => hes x (List.mem_append_right _ hx)) hnext
  · intro x hx
    rcases List.mem_cons.mp hx with rfl | hx
    · exact hb.layout.trans (layout_writeLeaf t x l b')
    · rw [List.mem_singleton.mp hx]
      exact layout_writeLeaf (t.writeLeaf b l b') b' r next
  · intro j hj hj'
    exact (sameBlock_writeLeaf g hj b' hl).trans (sameBlock_writeLeaf g' hj' next hr)

/-- The two nodes an internal node is split into are read back, and no other block changed. -/
theorem writeInternal_writeInternal (g : t.Geometry) {b b' : ℤ} (h : b ≠ b') {l r : List Entry}
    {first first' : ℤ} (hl : (l.length : ℤ) ≤ t.capacity_) (hr : (r.length : ℤ) ≤ t.capacity_)
    (hes : Entry.AllInRange β (l ++ r)) (hfirst : IntCodec.InRange β first)
    (hfirst' : IntCodec.InRange β first') :
    ((t.writeInternal b first l).writeInternal b' first' r).readInternal b = ⟨first, visible l⟩ ∧
      ((t.writeInternal b first l).writeInternal b' first' r).readInternal b' =
        ⟨first', visible r⟩ ∧
      (∀ x ∈ [b, b'], ((t.writeInternal b first l).writeInternal b' first' r).binFile_.layout
        (t.blockOffset x) = some .internal) ∧
      ∀ j, j ≠ b → j ≠ b' →
        SameBlock t ((t.writeInternal b first l).writeInternal b' first' r) j := by
  have g' : (t.writeInternal b first l).Geometry := ⟨g.1, g.2⟩
  have hb : SameBlock (t.writeInternal b first l)
      ((t.writeInternal b first l).writeInternal b' first' r) b :=
    sameBlock_writeInternal g' h first' hr
  refine ⟨?_, ?_, ?_, ?_⟩
  · rw [hb.internal]
    exact readInternal_writeInternal_visible g b hl
      (fun x hx => hes x (List.mem_append_left _ hx)) hfirst
  · exact readInternal_writeInternal_visible g' b' hr
      (fun x hx => hes x (List.mem_append_right _ hx)) hfirst'
  · intro x hx
    rcases List.mem_cons.mp hx with rfl | hx
    · exact hb.layout.trans (layout_writeInternal t x first l)
    · rw [List.mem_singleton.mp hx]
      exact layout_writeInternal (t.writeInternal b first l) b' first' r
  · intro j hj hj'
    exact (sameBlock_writeInternal g hj first hl).trans
      (sameBlock_writeInternal g' hj' first' hr)

end BPlusTree

end Laboratory.IndexFile
