import ModCpp.MachineWord

/-!
# Arrays of cells

A cell holds a value or is indeterminate. An access past the end of an array and a read of an
indeterminate cell are undefined.
-/

namespace ModCpp

abbrev Cells (α : Type*) := List (Option α)

namespace Cells
variable {α : Type*} {cells : Cells α} {src : ℕ → Except Failure α} {i n : ℕ} {v : α} {vs : List α}

/-- `new` without an initialiser. -/
def indeterminate (n : ℕ) : Cells α := List.replicate n none

def read (cells : Cells α) (i : ℕ) : Except Failure α :=
  match cells[i]? with
  | none => throw (.undefined "read past the end of an array")
  | some none => throw (.undefined "indeterminate value read")
  | some (some v) => pure v

def write (cells : Cells α) (i : ℕ) (v : α) : Except Failure (Cells α) :=
  if i < cells.length then pure (cells.set i (some v))
  else throw (.undefined "write past the end of an array")

/-- `for (int i = 0; i < n; i ++ ) cells[i] = src(i);` -/
def fill (src : ℕ → Except Failure α) (n : ℕ) (cells : Cells α) : Except Failure (Cells α) :=
  (List.range n).foldlM (fun cells i => do
    let v ← src i
    cells.write i v) cells

theorem read_of (h : cells[i]? = some (some v)) : cells.read i = .ok v := by
  rw [read, h]
  rfl

theorem read_map (h : i < vs.length) : read (vs.map some) i = .ok vs[i] := by
  refine read_of ?_
  rw [List.getElem?_map, List.getElem?_eq_getElem h]
  rfl

theorem write_of (h : i < cells.length) : cells.write i v = .ok (cells.set i (some v)) := if_pos h

theorem fill_succ : fill src (n + 1) cells = (do
    let cells ← fill src n cells
    let v ← src n
    cells.write n v) := by
  rw [fill, List.range_succ, List.foldlM_append]
  simp only [List.foldlM_cons, List.foldlM_nil, bind_pure]
  rfl

theorem fill_take (hn : n ≤ vs.length) (hc : n ≤ cells.length)
    (hsrc : ∀ i (h : i < vs.length), src i = .ok vs[i]) :
    fill src n cells = .ok ((vs.take n).map some ++ cells.drop n) := by
  induction n with
  | zero => rfl
  | succ n ih =>
    have hlen : ((vs.take n).map some).length = n := by
      rw [List.length_map, List.length_take]
      omega
    have hlt : n < ((vs.take n).map some ++ cells.drop n).length := by
      rw [List.length_append, hlen, List.length_drop]
      omega
    rw [fill_succ, ok_bind (ih (by omega) (by omega)), ok_bind (hsrc n hn), write_of hlt,
      List.set_append_right _ _ (by omega), hlen, Nat.sub_self,
      List.drop_eq_getElem_cons (show n < cells.length by omega), List.set_cons_zero,
      List.take_add_one, List.getElem?_eq_getElem hn, List.map_append, List.append_assoc]
    rfl

theorem fill_indeterminate (hsrc : ∀ i (h : i < vs.length), src i = .ok vs[i]) :
    fill src vs.length (indeterminate vs.length) = .ok (vs.map some) := by
  rw [fill_take (Nat.le_refl _) (by simp [indeterminate]) hsrc]
  simp [indeterminate]

/-- The first cells hold `vs`. -/
def Stores (cells : Cells α) (vs : List α) : Prop :=
  ∀ i (h : i < vs.length), cells[i]? = some (some vs[i])

theorem Stores.read (h : Stores cells vs) (hi : i < vs.length) : cells.read i = .ok vs[i] :=
  read_of (h i hi)

theorem Stores.length_le (h : Stores cells vs) : vs.length ≤ cells.length := by
  by_contra hlt
  have hlast := h cells.length (by omega)
  simp at hlast

theorem Stores.set (h : Stores cells vs) : Stores (cells.set i (some v)) (vs.set i v) := by
  intro j hj
  rw [List.length_set] at hj
  have hlen := h.length_le
  by_cases hij : i = j
  · subst hij
    simp [show i < cells.length by omega]
  · rw [List.getElem?_set_ne hij, h j hj, List.getElem_set_ne hij]

theorem Stores.push (h : Stores cells vs) (hlt : vs.length < cells.length) :
    Stores (cells.set vs.length (some v)) (vs ++ [v]) := by
  intro j hj
  by_cases hj' : j < vs.length
  · rw [List.getElem?_set_ne (by omega), h j hj', List.getElem_append_left hj']
  · obtain rfl : j = vs.length := by
      simp only [List.length_append, List.length_singleton] at hj
      omega
    simp [hlt]

end Cells

end ModCpp
