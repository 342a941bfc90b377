import Laboratory.IndexFile.Types
import Mathlib.Algebra.Group.Int.Defs

/-!
# The input lines

`InputParser.cpp`: an entry `key|value`, a search key, and a range `first-last`, each read with
`std::stoi`.  A string is the list of its characters.
-/

namespace Laboratory.IndexFile

/-- The exceptions of the parser, with their texts. -/
inductive ParseError where
  | invalid_argument (what : String)
  | out_of_range (what : String)
  deriving DecidableEq, Repr

/-- The range of an `int`. -/
def IsInt (v : ℤ) : Prop := -2 ^ 31 ≤ v ∧ v < 2 ^ 31

instance (v : ℤ) : Decidable (IsInt v) :=
  inferInstanceAs (Decidable (_ ∧ _))

/-- `std::isspace`: a blank, or one of the characters from tab to carriage return. -/
def isspace (c : Char) : Bool :=
  c = ' ' ∨ 9 ≤ c.toNat ∧ c.toNat ≤ 13

/-- The digits that `std::stoi` converts, after the sign. -/
def convert (negative : Bool) (str : List Char) : Except ParseError ℤ :=
  let digits := str.takeWhile Char.isDigit
  let magnitude : ℤ := Nat.ofDigitChars 10 digits 0
  let v := if negative then -magnitude else magnitude
  if digits = [] then .error (.invalid_argument "stoi")
  else if IsInt v then .ok v
  else .error (.out_of_range "stoi")

/-- `std::stoi`: blanks, an optional sign and digits; what follows is not looked at. -/
def stoi (str : List Char) : Except ParseError ℤ :=
  match str.dropWhile isspace with
  | '-' :: rest => convert true rest
  | '+' :: rest => convert false rest
  | rest => convert false rest

/-- What is before the first `delimiter` in the line, and what is after it. -/
def cut (delimiter : Char) (line : List Char) : Option (List Char × List Char) :=
  (line.findIdx? (· = delimiter)).map fun i => (line.take i, line.drop (i + 1))

def parseEntry (line : List Char) : Except ParseError Entry :=
  match cut '|' line with
  | none => .error (.invalid_argument ("invalid key/value input: " ++ String.ofList line))
  | some (key, value) => do return ⟨← stoi key, ← stoi value⟩

def parseSearchKey (line : List Char) : Except ParseError ℤ :=
  if line = [] then .ok 0 else stoi line

def parseRange (line : List Char) : Except ParseError (ℤ × ℤ) :=
  match cut '-' line with
  | none => .error (.invalid_argument ("invalid range input: " ++ String.ofList line))
  | some (first, last) => do return (← stoi first, ← stoi last)

end Laboratory.IndexFile
