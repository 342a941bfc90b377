import Laboratory.IndexFile.BinFile
import Mathlib.Data.List.Sort

/-!
# The B+ tree of the index file

`BPlusTree.cpp`, function by function: the node readers and writers, `getPath`, `insert` with its
four paths (`insertEmpty`, `insertIntoOnlyOne`, `insertLeaf`, `propagate`), `search`,
`rangeSearch`, `getMetadata`, and `createIndexFile` and `insertEntries` of `b+tree.cpp`.

The stream position is explicit: a seek followed by reads or writes of successive `int`s names
the offset of each.  `rangeSearch` follows the leaf chain without a bound of its own, so its loop
takes a fuel and returns `none` when the fuel runs out.
-/

namespace Laboratory.IndexFile

/-- The promoted entry that stands for "no split". -/
def NO_SPLIT : Entry := ⟨-1, -1⟩

/-- The test for `NO_SPLIT`. -/
def isNoSplit (entry : Entry) : Bool :=
  entry.key == NO_SPLIT.key && entry.value == NO_SPLIT.value

/-- The order of `sortEntries`: by key, equal keys by value. -/
def Entry.le (lhs rhs : Entry) : Prop :=
  lhs.key < rhs.key ∨ lhs.key = rhs.key ∧ lhs.value ≤ rhs.value

instance : DecidableRel Entry.le := fun a b =>
  inferInstanceAs (Decidable (a.key < b.key ∨ a.key = b.key ∧ a.value ≤ b.value))

/-- Sorts entries by key, equal keys by value. -/
def sortEntries (entries : List Entry) : List Entry :=
  entries.insertionSort Entry.le

/-- The entries as the `int`s the writers emit. -/
def Entry.ints (entries : List Entry) : List ℤ :=
  entries.flatMap fun e => [e.key, e.value]

/-- The members of the class.  `binFile_` is the open file. -/
structure BPlusTree (β : Type) where
  blockSize_ : ℤ
  rootBID_ : ℤ
  depth_ : ℤ
  capacity_ : ℤ
  numOfNodes_ : ℤ
  binFile_ : BinFile β

namespace BPlusTree

variable {β : Type} [IntCodec β]

/-- The offset of a block in the file. -/
def blockOffset (t : BPlusTree β) (blockId : ℤ) : ℤ :=
  HEADER_SIZE + (blockId - 1) * t.blockSize_

/-- The number of entries that stay in the left part of a split. -/
def splitIndex (t : BPlusTree β) : ℤ :=
  (t.capacity_ - 1).tdiv 2 + 1

/-- The entry stored at offset `pos`. -/
def readEntry (t : BPlusTree β) (pos : ℤ) : Entry :=
  ⟨t.binFile_.readInt pos, t.binFile_.readInt (pos + UNIT)⟩

/-- The `capacity_` entry slots from offset `pos` on. -/
def readSlots (t : BPlusTree β) (pos : ℤ) : List Entry :=
  (List.range t.capacity_.toNat).map fun i : ℕ => t.readEntry (pos + 2 * UNIT * i)

/-- Reads a leaf: the slots with key `0` are skipped, the link to the next leaf comes last. -/
def readLeaf (t : BPlusTree β) (blockId : ℤ) : LeafNode where
  entries := (t.readSlots (t.blockOffset blockId)).filter fun e => e.key ≠ 0
  next := t.binFile_.readInt (t.blockOffset blockId + 2 * UNIT * t.capacity_)

/-- Reads an internal node: the first child comes first, the separators end at the first slot
with key `0`. -/
def readInternal (t : BPlusTree β) (blockId : ℤ) : InternalNode where
  firstChild := t.binFile_.readInt (t.blockOffset blockId)
  separators := (t.readSlots (t.blockOffset blockId + UNIT)).takeWhile fun e => e.key ≠ 0

/-- The zero `int`s that fill the unused slots after `n` entries. -/
def padding (t : BPlusTree β) (n : ℕ) : List ℤ :=
  List.replicate (2 * (t.capacity_.toNat - n)) 0

/-- Writes a leaf: the entries, zeros for the unused slots, the link to the next leaf. -/
def writeLeaf (t : BPlusTree β) (blockId : ℤ) (entries : List Entry) (next : ℤ) : BPlusTree β :=
  { t with
    binFile_ := (t.binFile_.writeInts (t.blockOffset blockId)
      (Entry.ints entries ++ t.padding entries.length ++ [next])).mark
        (t.blockOffset blockId) .leaf }

/-- Writes an internal node: the first child, the separators, zeros for the unused slots. -/
def writeInternal (t : BPlusTree β) (blockId firstChild : ℤ) (separators : List Entry) :
    BPlusTree β :=
  { t with
    binFile_ := (t.binFile_.writeInts (t.blockOffset blockId)
      (firstChild :: (Entry.ints separators ++ t.padding separators.length))).mark
        (t.blockOffset blockId) .internal }

/-- Stores the root block id and the depth in the header. -/
def writeMetadata (t : BPlusTree β) : BPlusTree β :=
  { t with binFile_ := t.binFile_.writeInts UNIT [t.rootBID_, t.depth_] }

/-- The loop of `getPath` over the separators of a node: the child to follow for `key`. -/
def descend (key : ℤ) (current : ℤ) : List Entry → ℤ
  | [] => current
  | separator :: rest => if separator.key > key then current else descend key separator.value rest

/-- The levels of `getPath` that remain below block `current`. -/
def getPathFrom (t : BPlusTree β) (key : ℤ) : ℕ → ℤ → Path
  | 0, current => { dest := current, nodes := [current] }
  | level + 1, current =>
    let node := t.readInternal current
    let rest := t.getPathFrom key level (descend key node.firstChild node.separators)
    { dest := rest.dest, nodes := current :: rest.nodes }

/-- The blocks from the root to the leaf responsible for `key`. -/
def getPath (t : BPlusTree β) (key : ℤ) : Path :=
  if t.depth_ < 0 then { dest := t.rootBID_, nodes := [] }
  else t.getPathFrom key t.depth_.toNat t.rootBID_

/-- The first insertion: block `1` becomes the root leaf. -/
def insertEmpty (t : BPlusTree β) (entry : Entry) : BPlusTree β :=
  { t with numOfNodes_ := 1, rootBID_ := 1 }.writeLeaf 1 [entry] 0

/-- Insertion while the root is the only node.  When the leaf overflows, it is split and a new
root is put above the two halves. -/
def insertIntoOnlyOne (t : BPlusTree β) (entry : Entry) : BPlusTree β :=
  let root := t.readLeaf t.rootBID_
  let entries := sortEntries (root.entries ++ [entry])
  if (entries.length : ℤ) ≤ t.capacity_ then
    t.writeLeaf t.rootBID_ entries root.next
  else
    let left := entries.take t.splitIndex.toNat
    let right := entries.drop t.splitIndex.toNat
    let leftId := t.rootBID_
    let rightId := t.numOfNodes_ + 1
    let newRootId := t.numOfNodes_ + 2
    let t := { t with numOfNodes_ := newRootId }
    let t := t.writeLeaf leftId left rightId
    let t := t.writeLeaf rightId right 0
    let t := t.writeInternal newRootId leftId [⟨(right.headD {}).key, rightId⟩]
    { t with rootBID_ := newRootId, depth_ := t.depth_ + 1 }

/-- Insertion into a leaf.  When the leaf overflows, its upper part moves to a new block whose
first key is promoted. -/
def insertLeaf (t : BPlusTree β) (entry : Entry) (blockId : ℤ) : BPlusTree β × Entry :=
  let leaf := t.readLeaf blockId
  let entries := sortEntries (leaf.entries ++ [entry])
  if (entries.length : ℤ) ≤ t.capacity_ then
    (t.writeLeaf blockId entries leaf.next, NO_SPLIT)
  else
    let left := entries.take t.splitIndex.toNat
    let right := entries.drop t.splitIndex.toNat
    let newBlockId := t.numOfNodes_ + 1
    let t := { t with numOfNodes_ := newBlockId }
    let t := t.writeLeaf blockId left newBlockId
    let t := t.writeLeaf newBlockId right leaf.next
    (t, ⟨(right.headD {}).key, newBlockId⟩)

/-- Insertion of a promoted separator into an internal node.  When the node overflows, the middle
separator moves up; above the root it makes a new root. -/
def propagate (t : BPlusTree β) (entry : Entry) (blockId : ℤ) : BPlusTree β × Entry :=
  let node := t.readInternal blockId
  let separators := sortEntries (node.separators ++ [entry])
  if (separators.length : ℤ) ≤ t.capacity_ then
    (t.writeInternal blockId node.firstChild separators, NO_SPLIT)
  else
    let mid := t.splitIndex.toNat
    let left := separators.take mid
    let right := separators.drop (mid + 1)
    let promotedKey := (separators.getD mid {}).key
    let rightFirstChild := (separators.getD mid {}).value
    let newBlockId := t.numOfNodes_ + 1
    let t := { t with numOfNodes_ := newBlockId }
    let t := t.writeInternal blockId node.firstChild left
    let t := t.writeInternal newBlockId rightFirstChild right
    if blockId = t.rootBID_ then
      let oldRootId := blockId
      let newRootId := t.numOfNodes_ + 1
      let t := { t with numOfNodes_ := newRootId }
      let t := t.writeInternal newRootId oldRootId [⟨promotedKey, newBlockId⟩]
      ({ t with rootBID_ := newRootId, depth_ := t.depth_ + 1 }, NO_SPLIT)
    else
      (t, ⟨promotedKey, newBlockId⟩)

/-- The loop of `insert` over the ancestors of the leaf, from its parent to the root. -/
def propagateLoop (t : BPlusTree β) (promoted : Entry) : List ℤ → BPlusTree β × Entry
  | [] => (t, promoted)
  | blockId :: rest =>
    if isNoSplit promoted then (t, promoted)
    else (t.propagate promoted blockId).1.propagateLoop (t.propagate promoted blockId).2 rest

/-- Inserts an entry and stores the metadata. -/
def insert (t : BPlusTree β) (entry : Entry) : BPlusTree β :=
  let t :=
    if t.numOfNodes_ = 0 then t.insertEmpty entry
    else if t.numOfNodes_ = 1 then t.insertIntoOnlyOne entry
    else
      let path := t.getPath entry.key
      let (t, promoted) := t.insertLeaf entry (path.nodes.getLastD 0)
      (t.propagateLoop promoted path.nodes.dropLast.reverse).1
  t.writeMetadata

/-- The value stored under `key`, or `-1`. -/
def search (t : BPlusTree β) (key : ℤ) : ℤ :=
  if t.numOfNodes_ = 0 then -1
  else
    let leaf := t.readLeaf (t.getPath key).dest
    match leaf.entries.find? fun entry => entry.key == key with
    | some entry => entry.value
    | none => -1

/-- The inner loop of `rangeSearch` over the entries of one leaf.  `false` says that a key above
`last` was met, which ends the search. -/
def collect (first last : ℤ) (entries : List Entry) : List Entry → List Entry × Bool
  | [] => (entries, true)
  | entry :: rest =>
    if entry.key > last then (entries, false)
    else if entry.key ≥ first then collect first last (entries ++ [entry]) rest
    else collect first last entries rest

/-- The outer loop of `rangeSearch` along the leaf chain. -/
def rangeLoop (t : BPlusTree β) (first last : ℤ) :
    ℕ → List Entry → ℤ → Option (List Entry)
  | 0, _, _ => none
  | fuel + 1, entries, leafId =>
    if leafId = 0 then some entries
    else
      let leaf := t.readLeaf leafId
      match collect first last entries leaf.entries with
      | (entries, false) => some entries
      | (entries, true) => t.rangeLoop first last fuel entries leaf.next

/-- The entries with `first ≤ key ≤ last`. -/
def rangeSearch (t : BPlusTree β) (fuel : ℕ) (first last : ℤ) : Option (List Entry) :=
  if t.numOfNodes_ = 0 then some []
  else t.rangeLoop first last fuel [] (t.getPath first).dest

/-- Opens an index file; the number of nodes is derived from the length of the file. -/
def getMetadata (f : BinFile β) : Except String (BPlusTree β) :=
  let blockSize := f.readInt 0
  let rootBID := f.readInt UNIT
  let depth := f.readInt (2 * UNIT)
  let capacity := (blockSize - UNIT).tdiv (2 * UNIT)
  if capacity ≤ 0 then throw "invalid block size"
  else return {
    blockSize_ := blockSize
    rootBID_ := rootBID
    depth_ := depth
    capacity_ := capacity
    numOfNodes_ := (f.size - HEADER_SIZE).tdiv blockSize
    binFile_ := f }

/-- The insertions of one session. -/
def insertAll (t : BPlusTree β) (entries : List Entry) : BPlusTree β :=
  entries.foldl insert t

end BPlusTree

/-- A freshly created index file: the block size, no root, depth zero. -/
def createIndexFile {β : Type} [IntCodec β] (blockSize : ℤ) : BinFile β :=
  BinFile.empty.writeInts 0 [blockSize, 0, 0]

/-- One run of the insertion command on an index file. -/
def insertEntries {β : Type} [IntCodec β] (f : BinFile β) (entries : List Entry) :
    Except String (BinFile β) :=
  (BPlusTree.getMetadata f).map fun t => (t.insertAll entries).binFile_

end Laboratory.IndexFile
