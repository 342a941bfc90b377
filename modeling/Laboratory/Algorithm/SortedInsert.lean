import Mathlib.Data.List.Sort

/-!
# Sorting a sorted list with one more element

A list has one sorted permutation when the order is antisymmetric, so sorting any list gives the
sorted list one already knows to be a permutation of it (`insertionSort_eq_of_perm`).
-/

namespace Laboratory

variable {α : Type*} (r : α → α → Prop) [DecidableRel r] [Std.Total r] [IsTrans α r]

/-- Sorting gives the sorted permutation. -/
theorem insertionSort_eq_of_perm (hanti : ∀ a b, r a b → r b a → a = b) {l l' : List α}
    (hl : l.Pairwise r) (hperm : l'.Perm l) : l'.insertionSort r = l :=
  List.Perm.eq_of_pairwise (fun a b _ _ => hanti a b) (List.pairwise_insertionSort r l') hl
    ((List.perm_insertionSort r l').trans hperm)

/-- Sorting a list that was cut by the new last element puts that element at the cut. -/
theorem insertionSort_append_singleton (hanti : ∀ a b, r a b → r b a → a = b) {l m : List α}
    {x : α} (h : (l ++ x :: m).Pairwise r) :
    ((l ++ m) ++ [x]).insertionSort r = l ++ x :: m := by
  refine insertionSort_eq_of_perm r hanti h ?_
  rw [List.append_assoc]
  exact List.perm_append_comm.append_left l

end Laboratory
