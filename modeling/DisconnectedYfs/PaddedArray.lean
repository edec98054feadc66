import Mathlib.Data.List.OfFn
import Mathlib.Data.List.GetD
import Mathlib.Algebra.Group.Nat.Defs
import Mathlib.Algebra.Group.Int.Defs

/-! Arrays that grow: what is written beyond the end is preceded by zeros, and an array is cut or
padded to a length that is asked for. -/
namespace PaddedArray

universe u
variable {α : Type u} [Zero α]

/-- The array after `data` has been written at `off`. -/
def write (old : List α) (off : ℕ) (data : List α) : List α :=
  List.ofFn (n := max old.length (off+data.length)) (fun i =>
    if off ≤ i ∧ i < off+data.length then data.getD (i-off) 0 else old.getD i 0)

/-- The first `n` elements, padded with zeros to `n`. -/
def resize (old : List α) (n : ℕ) : List α := List.ofFn (n := n) (fun i => old.getD i 0)

/-- The elements from `off` up to `off+size` or the end. -/
def read (old : List α) (off size : ℕ) : List α :=
  List.ofFn (n := min (off+size) old.length-off) (fun i => old.getD (off+i) 0)

@[simp] theorem length_write (old : List α) (off : ℕ) (data : List α) :
    (write old off data).length = max old.length (off+data.length) := List.length_ofFn

@[simp] theorem length_resize (old : List α) (n : ℕ) : (resize old n).length = n := List.length_ofFn

@[simp] theorem length_read (old : List α) (off size : ℕ) :
    (read old off size).length = min (off+size) old.length-off := List.length_ofFn

theorem getElem_write (old : List α) (off : ℕ) (data : List α) (i : ℕ)
    (h : i < (write old off data).length) : (write old off data)[i] =
      if off ≤ i ∧ i < off+data.length then data.getD (i-off) 0 else old.getD i 0 := by
  simp [write]

/-- What is kept, the gap, what is written and the rest. -/
theorem write_eq (old : List α) (off : ℕ) (data : List α) : write old off data =
    (old.take off ++ List.replicate (off-old.length) 0) ++ data ++ old.drop (off+data.length) := by
  apply List.ext_getElem
  · simp
    omega
  intro i h h'
  rw [getElem_write]
  have hfront : (old.take off ++ List.replicate (off-old.length) (0 : α)).length = off := by
    simp
    omega
  by_cases hi : off ≤ i ∧ i < off+data.length
  · rw [if_pos hi, List.getElem_append_left (by simp; omega),
      List.getElem_append_right (by omega), List.getD_eq_getElem _ _ (by omega)]
    simp only [hfront]
  rw [if_neg hi]
  by_cases hoff : i < off
  · rw [List.getElem_append_left (by simp; omega), List.getElem_append_left (by omega)]
    by_cases hold : i < old.length
    · rw [List.getElem_append_left (by simp; omega), List.getD_eq_getElem _ _ hold,
        List.getElem_take]
    · rw [List.getElem_append_right (by simp; omega), List.getD_eq_default _ _ (by omega),
        List.getElem_replicate]
  · have hlen : i < old.length := by
      simp only [length_write] at h
      omega
    rw [List.getElem_append_right (by simp; omega), List.getD_eq_getElem _ _ hlen,
      List.getElem_drop]
    congr 1
    rw [List.length_append, hfront]
    omega

theorem resize_eq (old : List α) (n : ℕ) :
    resize old n = old.take n ++ List.replicate (n-old.length) 0 := by
  apply List.ext_getElem
  · simp
    omega
  intro i h h'
  simp only [resize, List.getElem_ofFn]
  by_cases hold : i < old.length
  · rw [length_resize] at h
    rw [List.getElem_append_left (by simp; omega), List.getD_eq_getElem _ _ hold, List.getElem_take]
  · rw [List.getElem_append_right (by simp; omega), List.getD_eq_default _ _ (by omega),
      List.getElem_replicate]

theorem read_eq (old : List α) (off size : ℕ) : read old off size = (old.drop off).take size := by
  apply List.ext_getElem
  · simp
    omega
  intro i h h'
  rw [length_read] at h
  simp only [read, List.getElem_ofFn, List.getElem_take, List.getElem_drop]
  rw [List.getD_eq_getElem _ _ (by omega)]

end PaddedArray
