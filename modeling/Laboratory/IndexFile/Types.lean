import Mathlib.Data.Int.Notation
import Mathlib.Data.Nat.Notation

/-!
# The types of the index file

The constants and the node types of `Types.h`.  A C++ `int` is an integer here: keys and values
are only compared and copied, and block ids only grow by one per allocated block.
-/

namespace Laboratory.IndexFile

/-- The size of an `int` in the file. -/
def UNIT : ℤ := 4

/-- The header holds the block size, the root block id and the depth. -/
def HEADER_UNITS : ℤ := 3

/-- The size of the header in bytes. -/
def HEADER_SIZE : ℤ := HEADER_UNITS * UNIT

/-- A key with its value in a leaf, or a separator key with its right child in an internal node. -/
structure Entry where
  key : ℤ := 0
  value : ℤ := 0
  deriving DecidableEq, Repr

/-- The blocks met on the way from the root to a leaf, and that leaf. -/
structure Path where
  dest : ℤ := 0
  nodes : List ℤ := []
  deriving DecidableEq, Repr

/-- The entries of a leaf and the block id of the next leaf (`0` at the end of the chain). -/
structure LeafNode where
  entries : List Entry := []
  next : ℤ := 0
  deriving DecidableEq, Repr

/-- The leftmost child and the separators, each with the child to its right. -/
structure InternalNode where
  firstChild : ℤ := 0
  separators : List Entry := []
  deriving DecidableEq, Repr

/-- The two ways a block is laid out.  The file does not record which one was used; the model
remembers it to state what the tree relies on. -/
inductive Layout where
  | leaf
  | internal
  deriving DecidableEq, Repr

end Laboratory.IndexFile
