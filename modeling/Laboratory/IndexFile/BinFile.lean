import Laboratory.IndexFile.Types
import Mathlib.Algebra.GroupWithZero.Nat
import Mathlib.Data.Fin.Basic
import Mathlib.Logic.Function.Basic

/-!
# The bytes of the index file

A file is a byte at every offset together with its size, the end of the furthest byte ever
written.  How an `int` is spread over its four bytes is an `IntCodec`; the range of integers a
codec can hold is part of it.  `ByteCodec` has the codec of a real file.
-/

namespace Laboratory.IndexFile

/-- The representation of an `int` by four bytes of type `β`. -/
class IntCodec (β : Type) where
  /-- The integers that fit into four bytes. -/
  InRange : ℤ → Prop
  encode : ℤ → Fin 4 → β
  decode : (Fin 4 → β) → ℤ
  decode_encode : ∀ {v : ℤ}, InRange v → decode (encode v) = v
  inRange_decode : ∀ bytes : Fin 4 → β, InRange (decode bytes)
  inRange_zero : InRange 0
  inRange_of_le : ∀ {v w : ℤ}, 0 ≤ v → v ≤ w → InRange w → InRange v

/-- An `int` has a lowest byte. -/
scoped instance neZero_four : NeZero 4 := ⟨by decide⟩

/-- The bytes of the file and its size.  `layout` is not in the file: it records, for each offset
at which a node was written, how that node was laid out. -/
structure BinFile (β : Type) where
  byte : ℤ → β
  size : ℤ
  layout : ℤ → Option Layout

namespace BinFile

variable {β : Type} [IntCodec β]

/-- The file after `std::ofstream` has created it: nothing is written yet. -/
def empty : BinFile β where
  byte _ := IntCodec.encode 0 0
  size := 0
  layout _ := none

/-- The `int` at offset `pos`, which has to lie in the file: past its end the stream fails.  No node
of a saved index lies there (`BPlusTree.Saved.node_le_size`). -/
def readInt (f : BinFile β) (pos : ℤ) : ℤ :=
  IntCodec.decode fun i => f.byte (pos + i.val)

/-- Writes an `int` at offset `pos`; a write past the end extends the file. -/
def writeInt (f : BinFile β) (pos v : ℤ) : BinFile β where
  byte o := if pos ≤ o ∧ o < pos + UNIT then
    IntCodec.encode v (Fin.ofNat 4 (o - pos).toNat) else f.byte o
  size := max f.size (pos + UNIT)
  layout := f.layout

/-- Writes successive `int`s from offset `pos` on. -/
def writeInts (f : BinFile β) (pos : ℤ) : List ℤ → BinFile β
  | [] => f
  | v :: vs => writeInts (f.writeInt pos v) (pos + UNIT) vs

/-- Records how the node written at offset `pos` is laid out. -/
def mark (f : BinFile β) (pos : ℤ) (l : Layout) : BinFile β :=
  { f with layout := Function.update f.layout pos (some l) }

end BinFile

end Laboratory.IndexFile
