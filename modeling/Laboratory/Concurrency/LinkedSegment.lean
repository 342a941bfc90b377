import Mathlib.Data.List.Basic
import Mathlib.Data.Nat.Notation
import Mathlib.Logic.Function.Basic

/-!
# Linked lists on a heap

A heap of nodes, and `Seg`, the linked list that starts at a node: the node itself is a dummy,
and the nodes after it carry the values.  The list grows at its end (`Seg.append`), shrinks at its
head (`Seg.tail`), and does not notice what happens to other nodes (`Seg.congr`).
-/

namespace Laboratory.Concurrency

variable {α : Type*}

/-- A node: the dummy has no value, the last node has no successor. -/
structure Node (α : Type*) where
  value : Option α := none
  next : Option ℕ := none

/-- From the node `h` on, the successors are the given nodes with the given values, and the last
one has no successor. -/
def Seg (nodes : ℕ → Option (Node α)) : ℕ → List (ℕ × α) → Prop
  | h, [] => ∃ v, nodes h = some ⟨v, none⟩
  | h, c :: cs => (∃ v, nodes h = some ⟨v, some c.1⟩) ∧
      (∃ next, nodes c.1 = some ⟨some c.2, next⟩) ∧ Seg nodes c.1 cs

/-- The last node. -/
def lastNode (h : ℕ) : List (ℕ × α) → ℕ
  | [] => h
  | c :: cs => lastNode c.1 cs

/-- The nodes of the list, the dummy first. -/
def segNodes (h : ℕ) (cs : List (ℕ × α)) : List ℕ :=
  h :: cs.map Prod.fst

variable {nodes nodes' : ℕ → Option (Node α)} {h n : ℕ} {cs : List (ℕ × α)}

theorem lastNode_append (h : ℕ) (cs : List (ℕ × α)) (c : ℕ × α) :
    lastNode h (cs ++ [c]) = c.1 := by
  induction cs generalizing h with
  | nil => rfl
  | cons d cs ih => exact ih d.1

theorem lastNode_mem (h : ℕ) (cs : List (ℕ × α)) : lastNode h cs ∈ segNodes h cs := by
  induction cs generalizing h with
  | nil => exact List.mem_singleton_self h
  | cons c cs ih => exact List.mem_cons_of_mem _ (ih c.1)

namespace Seg

/-- Other nodes do not matter. -/
theorem congr (hseg : Seg nodes h cs) (heq : ∀ m ∈ segNodes h cs, nodes' m = nodes m) :
    Seg nodes' h cs := by
  induction cs generalizing h with
  | nil =>
    obtain ⟨v, hv⟩ := hseg
    exact ⟨v, (heq h (List.mem_singleton_self h)).trans hv⟩
  | cons c cs ih =>
    obtain ⟨⟨v, hv⟩, ⟨next, hnext⟩, htail⟩ := hseg
    refine ⟨⟨v, ?_⟩, ⟨next, ?_⟩, ih htail fun m hm => heq m (List.mem_cons_of_mem _ hm)⟩
    · rw [heq h (List.mem_cons_self ..), hv]
    · rw [heq c.1 (List.mem_cons_of_mem _ (List.mem_cons_self ..)), hnext]

theorem update (hseg : Seg nodes h cs) (hn : n ∉ segNodes h cs) (x : Option (Node α)) :
    Seg (Function.update nodes n x) h cs := by
  apply hseg.congr
  intro m hm
  apply Function.update_of_ne
  rintro rfl
  exact hn hm

/-- Every node of the list is there. -/
theorem live (hseg : Seg nodes h cs) {m : ℕ} (hm : m ∈ segNodes h cs) : nodes m ≠ none := by
  induction cs generalizing h with
  | nil =>
    obtain ⟨v, hv⟩ := hseg
    rw [List.mem_singleton.mp hm, hv]
    exact Option.some_ne_none _
  | cons c cs ih =>
    obtain ⟨⟨v, hv⟩, -, htail⟩ := hseg
    rcases List.mem_cons.mp hm with rfl | hm
    · rw [hv]
      exact Option.some_ne_none _
    · exact ih htail hm

/-- The last node has no successor. -/
theorem last (hseg : Seg nodes h cs) : ∃ v, nodes (lastNode h cs) = some ⟨v, none⟩ := by
  induction cs generalizing h with
  | nil => exact hseg
  | cons c cs ih => exact ih hseg.2.2

/-- **The list grows at its end** by a node that is not in it. -/
theorem append {v : Option α} {a : α} (hseg : Seg nodes h cs) (hnodup : (segNodes h cs).Nodup)
    (hlast : nodes (lastNode h cs) = some ⟨v, none⟩) (hn : n ∉ segNodes h cs)
    (hnode : nodes n = some ⟨some a, none⟩) :
    Seg (Function.update nodes (lastNode h cs) (some ⟨v, some n⟩)) h (cs ++ [(n, a)]) := by
  induction cs generalizing h with
  | nil =>
    have hne : n ≠ h := fun heq => hn (heq ▸ List.mem_singleton_self h)
    refine ⟨⟨v, Function.update_self ..⟩, ⟨none, ?_⟩, ⟨some a, ?_⟩⟩ <;>
      exact (Function.update_of_ne hne _ _).trans hnode
  | cons c cs ih =>
    obtain ⟨⟨w, hw⟩, ⟨next, hnext⟩, htail⟩ := hseg
    obtain ⟨hh, hnodup⟩ := List.nodup_cons.mp hnodup
    have hgrown := ih htail hnodup hlast fun hm => hn (List.mem_cons_of_mem _ hm)
    refine ⟨⟨w, ?_⟩, ?_, hgrown⟩
    · rw [Function.update_of_ne, hw]
      intro heq
      exact hh (heq ▸ lastNode_mem c.1 cs)
    · -- The successor of `c` may have changed, its value has not.
      by_cases hc : c.1 = lastNode c.1 cs
      · rw [lastNode, ← hc, hnext, Option.some.injEq] at hlast
        refine ⟨some n, ?_⟩
        rw [lastNode, ← hc, Function.update_self]
        rw [Node.mk.injEq] at hlast
        rw [hlast.1]
      · exact ⟨next, by rw [lastNode, Function.update_of_ne hc, hnext]⟩

/-- **The list shrinks at its head**, whose successor becomes the dummy. -/
theorem tail {c : ℕ × α} (hseg : Seg nodes h (c :: cs)) : Seg nodes c.1 cs :=
  hseg.2.2

end Seg

end Laboratory.Concurrency
