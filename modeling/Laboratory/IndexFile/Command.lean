import Laboratory.IndexFile.BPlusTree
import Laboratory.IndexFile.Equiv.InputParser

/-!
# The program `b+tree`

`b+tree.cpp`: the commands that create an index file, insert entries into it, search it and print
it, and `main`, which picks one of them.  Lines are read from text files and answers written to text
files; a command that throws leaves what it has written so far.

The commands use the tree through the operations of an `Engine`.  `bPlusTree` is the engine of the
program.  Index files and text files are kept apart: no file is used as both.
-/

namespace Laboratory.IndexFile

/-- The text of an exception. -/
def ParseError.what : ParseError → String
  | .invalid_argument what | .out_of_range what => what

/-- The lines that `std::getline` reads: a newline at the end of a file ends its last line. -/
def getlines : List Char → List (List Char)
  | [] => []
  | '\n' :: rest => [] :: getlines rest
  | c :: rest =>
    match getlines rest with
    | [] => [[c]]
    | line :: lines => (c :: line) :: lines

/-- An entry as it is written: `key|value`. -/
def Entry.text (entry : Entry) : List Char :=
  decimal entry.key ++ '|' :: decimal entry.value

def writeCsv (values : List ℤ) : List Char :=
  [','].intercalate (values.map decimal) ++ ['\n']

/-! ### Printing a tree -/

namespace BPlusTree

variable {β : Type} [IntCodec β]

/-- The keys in the root, and those in the children of the root. -/
def printedKeys (t : BPlusTree β) : List ℤ × List ℤ :=
  if t.depth_ = 0 then ((t.readLeaf t.rootBID_).entries.map Entry.key, [])
  else
    let root := t.readInternal t.rootBID_
    let children := root.firstChild :: root.separators.map Entry.value
    (root.separators.map Entry.key,
      children.flatMap fun childId =>
        if t.depth_ = 1 then (t.readLeaf childId).entries.map Entry.key
        else (t.readInternal childId).separators.map Entry.key)

def print (t : BPlusTree β) : List Char :=
  ['<', '0', '>', '\n', '\n'] ++
    if t.numOfNodes_ = 0 then ['\n', '<', '1', '>', '\n', '\n']
    else
      writeCsv t.printedKeys.1 ++ ['\n', '<', '1', '>', '\n', '\n'] ++ writeCsv t.printedKeys.2

end BPlusTree

/-! ### Files and engines -/

/-- The files there are, by their names. -/
structure Files (File : Type) where
  index : List Char → Option File
  text : List Char → Option (List Char)

/-- The operations of an index that the commands use. -/
structure Engine (File Tree : Type) where
  create : ℤ → File
  getMetadata : File → Except String Tree
  binFile_ : Tree → File
  insert : Tree → Entry → Tree
  search : Tree → ℤ → ℤ
  /-- `none` when the search goes round in the chain of the leaves. -/
  rangeSearch : Tree → ℤ → ℤ → Option (List Entry)
  print : Tree → List Char

/-- **The engine of the program.** -/
def bPlusTree (β : Type) [IntCodec β] (fuel : ℕ) : Engine (BinFile β) (BPlusTree β) where
  create := createIndexFile
  getMetadata := BPlusTree.getMetadata
  binFile_ := BPlusTree.binFile_
  insert := BPlusTree.insert
  search := BPlusTree.search
  rangeSearch t := t.rangeSearch fuel
  print := BPlusTree.print

namespace Engine

variable {File Tree : Type} (E : Engine File Tree)

/-- The constructor of a tree and `getMetadata`. -/
def openIndex (files : Files File) (indexFile : List Char) : Except String Tree :=
  match files.index indexFile with
  | none => .error "failed to open index file"
  | some f => E.getMetadata f

/-- The lines of an input file; one that cannot be opened has none. -/
def lines (files : Files File) (inputFile : List Char) : List (List Char) :=
  (files.text inputFile).elim [] getlines

/-! ### The commands -/

def createIndexFile (files : Files File) (indexFile : List Char) (blockSize : ℤ) : Files File :=
  { files with index := Function.update files.index indexFile (some (E.create blockSize)) }

/-- The loop of `insertEntries`. -/
def insertLines (tree : Tree) : List (List Char) → Tree × Except String Unit
  | [] => (tree, .ok ())
  | line :: rest =>
    if line = [] then insertLines tree rest
    else
      match parseEntry line with
      | .ok entry => insertLines (E.insert tree entry) rest
      | .error e => (tree, .error e.what)

def insertEntries (files : Files File) (indexFile inputFile : List Char) :
    Files File × Except String Unit :=
  match E.openIndex files indexFile with
  | .error what => (files, .error what)
  | .ok tree =>
    let (tree, result) := E.insertLines tree (lines files inputFile)
    ({ files with index := Function.update files.index indexFile (some (E.binFile_ tree)) }, result)

/-- The loop of `searchEntries`, and what it writes. -/
def searchLines (tree : Tree) : List (List Char) → List Char × Except String Unit
  | [] => ([], .ok ())
  | line :: rest =>
    match parseSearchKey line with
    | .error e => ([], .error e.what)
    | .ok key =>
      let (out, result) := searchLines tree rest
      (if key ≠ 0 then Entry.text ⟨key, E.search tree key⟩ ++ '\n' :: out else out, result)

/-- An output file is empty when it has been opened, before the input is read. -/
def openOutput (files : Files File) (outputFile : List Char) : Files File :=
  { files with text := Function.update files.text outputFile (some []) }

/-- The file `outputFile` once it is closed. -/
def closeOutput (files : Files File) (outputFile out : List Char) : Files File :=
  { files with text := Function.update files.text outputFile (some out) }

def searchEntries (files : Files File) (indexFile inputFile outputFile : List Char) :
    Files File × Except String Unit :=
  match E.openIndex files indexFile with
  | .error what => (files, .error what)
  | .ok tree =>
    let files := openOutput files outputFile
    let (out, result) := E.searchLines tree (lines files inputFile)
    (closeOutput files outputFile out, result)

/-- The loop of `rangeSearchEntries`, and what it writes. -/
def rangeLines (tree : Tree) : List (List Char) → Option (List Char × Except String Unit)
  | [] => some ([], .ok ())
  | line :: rest =>
    if line = [] then rangeLines tree rest
    else
      match parseRange line with
      | .error e => some ([], .error e.what)
      | .ok (first, last) => do
        let entries ← E.rangeSearch tree first last
        let (out, result) ← rangeLines tree rest
        return ((entries.flatMap fun entry => entry.text ++ [' ']) ++ '\n' :: out, result)

def rangeSearchEntries (files : Files File) (indexFile inputFile outputFile : List Char) :
    Option (Files File × Except String Unit) :=
  match E.openIndex files indexFile with
  | .error what => some (files, .error what)
  | .ok tree =>
    let files := openOutput files outputFile
    (E.rangeLines tree (lines files inputFile)).map fun (out, result) =>
      (closeOutput files outputFile out, result)

/-- The tree of the command `p`. -/
def printIndex (files : Files File) (indexFile outputFile : List Char) :
    Files File × Except String Unit :=
  match E.openIndex files indexFile with
  | .error what => (files, .error what)
  | .ok tree => (closeOutput files outputFile (E.print tree), .ok ())

/-! ### The choice of a command -/

/-- The `switch` of `main`, with the arguments after the index file. -/
def command (files : Files File) (indexFile : List Char) (args : List (List Char)) :
    Option Char → Option (Files File × Except String Unit)
  | some 'c' =>
    match args with
    | blockSize :: _ =>
      match stoi blockSize with
      | .ok n => some (E.createIndexFile files indexFile n, .ok ())
      | .error e => some (files, .error e.what)
    | [] => some (files, .error "missing block size")
  | some 'i' =>
    match args with
    | inputFile :: _ => some (E.insertEntries files indexFile inputFile)
    | [] => some (files, .error "missing insertion input file")
  | some 's' =>
    match args with
    | inputFile :: outputFile :: _ => some (E.searchEntries files indexFile inputFile outputFile)
    | _ => some (files, .error "missing search input or output file")
  | some 'r' =>
    match args with
    | inputFile :: outputFile :: _ => E.rangeSearchEntries files indexFile inputFile outputFile
    | _ => some (files, .error "missing range input or output file")
  | some 'p' =>
    match args with
    | outputFile :: _ => some (E.printIndex files indexFile outputFile)
    | [] => some (files, .error "missing print output file")
  | _ => some (files, .error "unknown command")

/-- What the program says on the error stream; it returns `0` if it says nothing, else `1`. -/
inductive Exit where
  | success
  | usage
  | error (what : String)
  deriving DecidableEq, Repr

def Exit.ofResult : Except String Unit → Exit
  | .ok _ => .success
  | .error what => .error what

/-- **One run of the program.** The command is the first character of `argv[1]`. -/
def main (files : Files File) : List (List Char) → Option (Files File × Exit)
  | _ :: cmd :: indexFile :: args =>
    (E.command files indexFile args cmd.head?).map fun (files, result) =>
      (files, .ofResult result)
  | _ => some (files, .usage)

/-- Runs of the program, one after the other, and what each said. -/
def runs (files : Files File) : List (List (List Char)) → Option (Files File × List Exit)
  | [] => some (files, [])
  | argv :: rest =>
    (E.main files argv).bind fun (files, exit) =>
      (runs files rest).map fun (files, exits) => (files, exit :: exits)

end Engine

end Laboratory.IndexFile
