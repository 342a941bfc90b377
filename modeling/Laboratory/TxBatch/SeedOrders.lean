import Mathlib.Algebra.Order.Group.Multiset
import Mathlib.Data.Finset.Prod
import Mathlib.Data.PNat.Basic
import Mathlib.Data.Int.Init

/-!
# Seeding the orders

`tools/seed_orders_large.sh` fills the table `orders` in chunks, one `INSERT` for each, numbering
the rows by an offset of its own and a table of the numbers from 1 to 1,000,000.  A runner may be
killed between two `INSERT` statements; its calls say how many of them it comes to.

The table is the multiset of its rows.  A row counts its `created_at` in days before the insertion.
It has fewer than `2^63` rows, as `COUNT(*)` is a `BIGINT`, and `days_span`, which only the database
reads, is a positive number here.

The texts of `rows` and `chunk` are read by two languages.  The arithmetic of the shell takes a
number with a leading zero for an octal one, wraps at 64 bits, and fails at a digit that is not of
the base; a condition that fails counts as false, and an assignment that fails ends the loop around
it.  The database reads decimal numbers.
-/

namespace Laboratory.TxBatch

inductive OrderStatus where
  | PAID
  | CANCEL
  deriving DecidableEq, Repr

structure Order where
  amount : ℕ
  status : OrderStatus
  created_at : ℕ
  deriving DecidableEq, Repr

/-! ### `bootstrap_sequences.sql` -/

def digits : Finset ℕ := Finset.range 10

/-- The numbers that six digits make, from 1 on. -/
def nums_1m : Finset ℕ :=
  (digits ×ˢ digits ×ˢ digits ×ˢ digits ×ˢ digits ×ˢ digits).image fun (a, b, c, d, e, f) =>
    1 + a + 10 * b + 100 * c + 1000 * d + 10000 * e + 100000 * f

/-! ### `seed_orders_large.sh` -/

inductive Mode where
  | truncate
  | resume
  | error_if_exists
  deriving DecidableEq, Repr

/-- How a call ends. -/
inductive Exit where
  | done
  | refused
  | killed
  deriving DecidableEq, Repr

/-! #### The numbers of the arguments -/

def isNumber (text : List Char) : Bool := text ≠ [] ∧ text.all Char.isDigit

def digit (c : Char) : ℕ := c.toNat - '0'.toNat

/-- The number that digits make to a base. -/
def number (base : ℕ) (text : List Char) : ℕ :=
  text.foldl (fun n c => base * n + digit c) 0

/-- The number as the database reads it. -/
def sqlNumber (text : List Char) : ℕ := number 10 text

/-- The number as the shell reads it, a signed one of 64 bits. -/
def arith : List Char → Option ℤ
  | '0' :: rest =>
    if rest.all (digit · < 8) then some (Int.bmod (number 8 rest) (2 ^ 64)) else none
  | text => some (Int.bmod (number 10 text) (2 ^ 64))

/-- A condition on the number of a text. -/
def cond (text : List Char) (p : ℤ → Bool) : Bool := (arith text).elim false p

/-! #### The calls -/

/-- A call, with the number of `INSERT` statements after which it is killed if it is not done. -/
structure Invocation where
  rows : List Char
  chunk : List Char := ['1', '0', '0', '0', '0', '0', '0']
  mode : Mode := .error_if_exists
  inserts : ℕ
  deriving DecidableEq, Repr

section

variable (days_span : ℕ+)

/-- The columns selected for the number `n`. -/
def selectOrder (offset n : ℕ) : Order where
  amount := (n + offset) % 1000 + 1
  status := if (n + offset) % 5 = 0 then .CANCEL else .PAID
  created_at := (n + offset) % days_span

/-- One `INSERT … SELECT … FROM nums_1m WHERE n <= take`. -/
def insertOrders (offset take : ℕ) (orders : Multiset Order) : Multiset Order :=
  orders + (nums_1m.filter (· ≤ take)).val.map (selectOrder days_span offset)

/-- The loop over the chunks.  The last chunk is a number of the shell; before that `take` is the
text of the argument. -/
def chunkLoop (rows chunk : List Char) : ℕ → ℕ → Multiset Order → Multiset Order × Exit
  | 0, offset, orders =>
    if cond rows (offset < ·) then (orders, .killed) else (orders, .done)
  | inserts + 1, offset, orders =>
    match arith rows with
    | none => (orders, .done)
    | some target =>
      if offset < target then
        let remaining := target - offset
        if cond chunk (remaining < ·) then
          chunkLoop rows chunk inserts (offset + remaining).toNat
            (insertOrders days_span offset remaining.toNat orders)
        else
          let orders := insertOrders days_span offset (sqlNumber chunk) orders
          match arith chunk with
          | some take => chunkLoop rows chunk inserts (offset + take).toNat orders
          | none => (orders, .done)
      else (orders, .done)

/-- **One call of the script.** -/
def seedOrdersLarge (call : Invocation) (orders : Multiset Order) : Multiset Order × Exit :=
  if ¬(isNumber call.rows ∧ isNumber call.chunk) then (orders, .refused)
  else if cond call.rows (· ≤ 0) then (orders, .refused)
  else if cond call.chunk fun chunk => chunk ≤ 0 || chunk > 1000000 then (orders, .refused)
  else
    let orders := if call.mode = .truncate then 0 else orders
    let existing := orders.card
    if call.mode = .error_if_exists ∧ existing ≠ 0 then (orders, .refused)
    else
      let offset := if call.mode = .resume then existing else 0
      if cond call.rows (offset ≥ ·) then (orders, .done)
      else chunkLoop days_span call.rows call.chunk call.inserts offset orders

/-- The table after calls, one after the other, into an empty table. -/
def seedAll (calls : List Invocation) : Multiset Order :=
  calls.foldl (fun orders call => (seedOrdersLarge days_span call orders).1) 0

end

end Laboratory.TxBatch
