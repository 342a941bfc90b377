import Laboratory.IndexFile.ByteCodec
import Laboratory.IndexFile.Equiv.NodeIO

/-!
# Nodes come back, and stay in their blocks

`node_roundTrip`: a node that has been written is read back as it was, and no byte outside of its
block has changed, so that the header and all other nodes are read as before.
-/

namespace Laboratory.IndexFile.BPlusTree

variable {β : Type} [IntCodec β] {t t' : BPlusTree β} {b : ℤ}

/-- Two trees whose files differ in block `b` only. -/
structure OnlyBlock (t t' : BPlusTree β) (b : ℤ) : Prop where
  byte : ∀ o, o < t.blockOffset b ∨ t.blockOffset b + t.blockSize_ ≤ o →
    t'.binFile_.byte o = t.binFile_.byte o
  header : ∀ pos, 0 ≤ pos → pos + UNIT ≤ HEADER_SIZE →
    t'.binFile_.readInt pos = t.binFile_.readInt pos
  block : ∀ b', b' ≠ b → t'.readLeaf b' = t.readLeaf b' ∧ t'.readInternal b' = t.readInternal b'

/-- A node is no longer than its block. -/
theorem Geometry.byte_writeInts (g : t.Geometry) (f : BinFile β) {vs : List ℤ} {o : ℤ}
    (hvs : (vs.length : ℤ) = 1 + 2 * t.capacity_)
    (ho : o < t.blockOffset b ∨ t.blockOffset b + t.blockSize_ ≤ o) :
    (f.writeInts (t.blockOffset b) vs).byte o = f.byte o := by
  have hfits := g.blockSize_bounds.1
  apply BinFile.byte_writeInts
  rw [hvs]
  unfold UNIT
  omega

/-- Bytes outside of a block make up the header. -/
theorem Geometry.header_of_byte (g : t.Geometry) (hb : 1 ≤ b)
    (hbyte : ∀ o, o < t.blockOffset b → t'.binFile_.byte o = t.binFile_.byte o) {pos : ℤ}
    (hpos : pos + UNIT ≤ HEADER_SIZE) : t'.binFile_.readInt pos = t.binFile_.readInt pos := by
  have hheader := g.header_le_blockOffset hb
  apply BinFile.readInt_congr
  intro o _ ho
  exact hbyte o (by omega)

theorem onlyBlock_writeLeaf (g : t.Geometry) (hb : 1 ≤ b) {entries : List Entry} (p : ℤ)
    (hlength : (entries.length : ℤ) ≤ t.capacity_) :
    OnlyBlock t (t.writeLeaf b entries p) b := by
  have hbyte (o : ℤ) (ho : o < t.blockOffset b ∨ t.blockOffset b + t.blockSize_ ≤ o) :
      (t.writeLeaf b entries p).binFile_.byte o = t.binFile_.byte o :=
    g.byte_writeInts t.binFile_ (leafInts_length g p hlength) ho
  refine ⟨hbyte, fun pos _ hpos => ?_, fun b' hne => ?_⟩
  · exact g.header_of_byte hb (fun o ho => hbyte o (.inl ho)) hpos
  · have hsame := sameBlock_writeLeaf g hne p hlength
    exact ⟨hsame.leaf, hsame.internal⟩

theorem onlyBlock_writeInternal (g : t.Geometry) (hb : 1 ≤ b) (p : ℤ) {separators : List Entry}
    (hlength : (separators.length : ℤ) ≤ t.capacity_) :
    OnlyBlock t (t.writeInternal b p separators) b := by
  have hbyte (o : ℤ) (ho : o < t.blockOffset b ∨ t.blockOffset b + t.blockSize_ ≤ o) :
      (t.writeInternal b p separators).binFile_.byte o = t.binFile_.byte o :=
    g.byte_writeInts t.binFile_ (internalInts_length g p hlength) ho
  refine ⟨hbyte, fun pos _ hpos => ?_, fun b' hne => ?_⟩
  · exact g.header_of_byte hb (fun o ho => hbyte o (.inl ho)) hpos
  · have hsame := sameBlock_writeInternal g hne p hlength
    exact ⟨hsame.leaf, hsame.internal⟩

/-- **Nodes come back.** For every block size with room for an entry, whatever four bytes make an
`int`: a leaf and an internal node with at most `capacity_` entries, none of them with key `0`, are
read back as they were written, and only their block has changed. -/
theorem node_roundTrip (g : t.Geometry) (hb : 1 ≤ b) {entries : List Entry} {p : ℤ}
    (hlength : (entries.length : ℤ) ≤ t.capacity_) (hkeys : ∀ e ∈ entries, e.key ≠ 0)
    (hentries : Entry.AllInRange β entries) (hp : IntCodec.InRange β p) :
    (t.writeLeaf b entries p).readLeaf b = ⟨entries, p⟩ ∧
      OnlyBlock t (t.writeLeaf b entries p) b ∧
      (t.writeInternal b p entries).readInternal b = ⟨p, entries⟩ ∧
      OnlyBlock t (t.writeInternal b p entries) b := by
  refine ⟨?_, onlyBlock_writeLeaf g hb p hlength, ?_, onlyBlock_writeInternal g hb p hlength⟩
  · rw [readLeaf_writeLeaf_live g b hlength hentries hp, live_eq_self hkeys]
  · rw [readInternal_writeInternal_visible g b hlength hentries hp, visible_eq_self hkeys]

/-- A tree with blocks of 36 bytes, on a file of bytes. -/
def bytesTree : BPlusTree UInt8 where
  blockSize_ := 36
  rootBID_ := 0
  depth_ := 0
  capacity_ := 4
  numOfNodes_ := 0
  binFile_ := createIndexFile 36

/-- Negative keys and values, and the largest and smallest `int`, in the third block. -/
theorem node_roundTrip_bytes :
    (bytesTree.writeLeaf 3 [⟨-7, 5⟩, ⟨2147483647, -2147483648⟩] 2).readLeaf 3 =
        ⟨[⟨-7, 5⟩, ⟨2147483647, -2147483648⟩], 2⟩ ∧
      OnlyBlock bytesTree (bytesTree.writeLeaf 3 [⟨-7, 5⟩, ⟨2147483647, -2147483648⟩] 2) 3 := by
  have g : bytesTree.Geometry := ⟨by decide, by decide⟩
  have hrange : Entry.AllInRange UInt8 [⟨-7, 5⟩, ⟨2147483647, -2147483648⟩] := by
    intro e he
    rcases List.mem_cons.mp he with rfl | he
    · exact ⟨⟨by decide, by decide⟩, ⟨by decide, by decide⟩⟩
    · obtain rfl := List.mem_singleton.mp he
      exact ⟨⟨by decide, by decide⟩, ⟨by decide, by decide⟩⟩
  obtain ⟨hread, hbytes, -⟩ := node_roundTrip (b := 3) (p := 2) g (by decide) (by decide)
    (by decide) hrange ⟨by decide, by decide⟩
  exact ⟨hread, hbytes⟩

end Laboratory.IndexFile.BPlusTree
