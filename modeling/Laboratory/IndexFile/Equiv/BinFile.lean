import Laboratory.IndexFile.BinFile
import Mathlib.Tactic.Ring

/-!
# Reading back what was written

`readInt_writeInts_getElem`: the `i`-th written `int` is read back at offset `pos + 4 i`;
`byte_writeInts`: bytes outside the written range keep their value; `size_writeInts`: the size
is the end of the furthest byte ever written.
-/

namespace Laboratory.IndexFile.BinFile

variable {β : Type} [IntCodec β]

/-! ### One `int` -/

theorem readInt_writeInt_self (f : BinFile β) (pos : ℤ) {v : ℤ}
    (hv : IntCodec.InRange β v) : (f.writeInt pos v).readInt pos = v := by
  have hbytes : (fun i : Fin 4 => (f.writeInt pos v).byte (pos + i.val)) = IntCodec.encode v := by
    funext i
    have hi : pos ≤ pos + (i.val : ℤ) ∧ pos + (i.val : ℤ) < pos + UNIT := by
      unfold UNIT; omega
    simp only [writeInt, hi, and_self, ite_true, add_sub_cancel_left, Int.toNat_natCast]
    congr 1
    exact Fin.ofNat_val_eq_self i
  rw [readInt, hbytes]
  exact IntCodec.decode_encode hv

theorem byte_writeInt (f : BinFile β) {pos v o : ℤ} (h : o < pos ∨ pos + UNIT ≤ o) :
    (f.writeInt pos v).byte o = f.byte o := by
  have hno : ¬ (pos ≤ o ∧ o < pos + UNIT) := by omega
  simp only [writeInt, hno, ite_false]

/-- A read depends on its four bytes only. -/
theorem readInt_congr {f g : BinFile β} {pos : ℤ}
    (h : ∀ o, pos ≤ o → o < pos + UNIT → g.byte o = f.byte o) : g.readInt pos = f.readInt pos := by
  unfold readInt
  congr 1
  funext i
  refine h _ (by omega) ?_
  unfold UNIT
  omega

/-! ### Successive `int`s -/

theorem byte_writeInts (f : BinFile β) (pos : ℤ) (vs : List ℤ) {o : ℤ}
    (h : o < pos ∨ pos + UNIT * vs.length ≤ o) : (f.writeInts pos vs).byte o = f.byte o := by
  induction vs generalizing f pos with
  | nil => rfl
  | cons v vs ih =>
    have hlen : UNIT * ((v :: vs).length : ℤ) = UNIT + UNIT * vs.length := by
      rw [List.length_cons]; push_cast; ring
    have hnn : 0 ≤ UNIT * (vs.length : ℤ) := by unfold UNIT; omega
    rw [writeInts, ih _ _ (by unfold UNIT at *; omega)]
    exact byte_writeInt f (by unfold UNIT at *; omega)

theorem readInt_writeInts (f : BinFile β) (pos : ℤ) (vs : List ℤ) {q : ℤ}
    (h : q + UNIT ≤ pos ∨ pos + UNIT * vs.length ≤ q) :
    (f.writeInts pos vs).readInt q = f.readInt q :=
  readInt_congr fun o h1 h2 => byte_writeInts f pos vs (by omega)

theorem readInt_writeInts_getElem (f : BinFile β) (pos : ℤ) (vs : List ℤ)
    (hvs : ∀ v ∈ vs, IntCodec.InRange β v) (i : ℕ) (hi : i < vs.length) :
    (f.writeInts pos vs).readInt (pos + UNIT * i) = vs[i] := by
  induction vs generalizing f pos i with
  | nil => simp at hi
  | cons v vs ih =>
    have hv := hvs v (List.mem_cons_self ..)
    have hrest : ∀ w ∈ vs, IntCodec.InRange β w := fun w hw => hvs w (List.mem_cons_of_mem _ hw)
    cases i with
    | zero =>
      rw [writeInts, readInt_writeInts _ _ _ (by simp), List.getElem_cons_zero]
      simpa using readInt_writeInt_self f pos hv
    | succ i =>
      have hpos : pos + UNIT * ((i + 1 : ℕ) : ℤ) = pos + UNIT + UNIT * i := by
        push_cast; ring
      rw [writeInts, hpos, ih _ _ hrest i (by simpa using hi), List.getElem_cons_succ]

theorem size_writeInts (f : BinFile β) (pos : ℤ) (vs : List ℤ) (h : vs ≠ []) :
    (f.writeInts pos vs).size = max f.size (pos + UNIT * vs.length) := by
  induction vs generalizing f pos with
  | nil => exact absurd rfl h
  | cons v vs ih =>
    have hlen : UNIT * ((v :: vs).length : ℤ) = UNIT + UNIT * vs.length := by
      rw [List.length_cons]; push_cast; ring
    rw [writeInts]
    by_cases hvs : vs = []
    · subst hvs
      simp [writeInts, writeInt]
    · rw [ih _ _ hvs, writeInt, hlen]
      have hnn : 0 ≤ UNIT * (vs.length : ℤ) := by unfold UNIT; omega
      simp only
      omega

@[simp] theorem layout_writeInts (f : BinFile β) (pos : ℤ) (vs : List ℤ) :
    (f.writeInts pos vs).layout = f.layout := by
  induction vs generalizing f pos with
  | nil => rfl
  | cons v vs ih => rw [writeInts, ih, writeInt]

/-! ### Marking the layout -/

@[simp] theorem readInt_mark (f : BinFile β) (pos : ℤ) (l : Layout) (q : ℤ) :
    (f.mark pos l).readInt q = f.readInt q := rfl

omit [IntCodec β] in
@[simp] theorem size_mark (f : BinFile β) (pos : ℤ) (l : Layout) :
    (f.mark pos l).size = f.size := rfl

end Laboratory.IndexFile.BinFile
