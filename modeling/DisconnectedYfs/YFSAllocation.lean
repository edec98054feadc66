import DisconnectedYfs.YFSDirectoryRuns
import Mathlib.Data.Finset.Card

/-! How many inode numbers there are to draw. `get_rand_num` puts two values of `rand()` side by
side and keeps 16 bits of them. -/
namespace DisconnectedYfs.YFS
open Std

/-- What `rand()` can return: `RAND_MAX` is 2^31-1. -/
def IsRand (a : ℕ) : Prop := a < 2^31

/-- The loop of `create`, `mkdir` and `lock_acquired` on these values of `rand()`, when the extents
of `S` exist: the number it ends with. -/
def allocLoop (S : Finset ℕ) (mask : ℕ) : List (ℕ × ℕ) → Option ℕ
  | [] => none
  | (a, b) :: draws =>
    if randNum a b ||| mask ∈ S then allocLoop S mask draws else some (randNum a b ||| mask)

/-- The calls of one round of the loop, answered so. -/
def allocRound (mask : ℕ) (S : Finset ℕ) (p : ℕ × ℕ) : List Act :=
  let i := randNum p.1 p.2 ||| mask
  [.draw p.1 p.2, .acquire i .ok] ++
    if i ∈ S then [.get i (.ok []), .release i] else [.get i (.error .noent)]

/-- The calls of the whole loop. -/
def allocCalls (S : Finset ℕ) (mask : ℕ) : List (ℕ × ℕ) → List Act
  | [] => []
  | p :: draws => allocRound mask S p ++
      if randNum p.1 p.2 ||| mask ∈ S then allocCalls S mask draws else []

/-- The program goes round the loop as long as the drawn numbers exist, and comes out of it with the
first that does not. -/
theorem allocLoop_steps (S : Finset ℕ) (mask : ℕ) (k : ℕ → Prog) (draws : List (ℕ × ℕ)) :
    (allocCalls S mask draws).foldlM Prog.step (.alloc mask k) =
      some ((allocLoop S mask draws).elim (.alloc mask k) k) := by
  induction draws with
  | nil => rfl
  | cons p draws ih =>
    rw [allocCalls, allocLoop, List.foldlM_append]
    by_cases hmem : randNum p.1 p.2 ||| mask ∈ S
    · have hround : (allocRound mask S p).foldlM Prog.step (.alloc mask k) =
          some (.alloc mask k) := by
        simp [allocRound, hmem, Prog.step, Prog.tryInum]
      rw [hround, if_pos hmem, if_pos hmem]
      exact ih
    · have hround : (allocRound mask S p).foldlM Prog.step (.alloc mask k) =
          some (k (randNum p.1 p.2 ||| mask)) := by
        simp [allocRound, hmem, Prog.step, Prog.tryInum]
      rw [hround, if_neg hmem, if_neg hmem]
      rfl

/-- Only the second value of `rand()` counts, and its 16 low bits. -/
theorem randNum_eq_mod (a b : ℕ) : randNum a b = b % 2^16 := by
  apply Nat.eq_of_testBit_eq
  intro j
  have hmask : (0xFFFF : ℕ) = 2^16-1 := rfl
  rw [randNum, hmask, Nat.and_two_pow_sub_one_eq_mod, Nat.testBit_mod_two_pow,
    Nat.testBit_mod_two_pow, Nat.testBit_or, Nat.testBit_shiftLeft]
  by_cases hj : j < 16
  · have hlow : ¬ 16 ≤ j := by omega
    simp [hj, hlow]
  · simp [hj]

theorem randNum_drawn (a b mask : ℕ) : Drawn mask (randNum a b ||| mask) := by
  refine ⟨randNum a b, ?_, rfl⟩
  have := Nat.mod_lt b (show 0 < 2^16 by decide)
  rw [randNum_eq_mod]
  omega

/-- The loop can end exactly if one of the 2^16 numbers is left; and the program runs the loop. -/
theorem allocation_ends_iff (S : Finset ℕ) (mask : ℕ) :
    ((∃ draws i, (∀ p ∈ draws, IsRand p.1 ∧ IsRand p.2) ∧ allocLoop S mask draws = some i) ↔
      ∃ i, Drawn mask i ∧ i ∉ S) ∧
    ∀ k draws, (allocCalls S mask draws).foldlM Prog.step (.alloc mask k) =
      some ((allocLoop S mask draws).elim (.alloc mask k) k) := by
  refine ⟨⟨?_, ?_⟩, allocLoop_steps S mask⟩
  · rintro ⟨draws,i,-,h⟩
    induction draws with
    | nil => cases h
    | cons p draws ih =>
      rw [allocLoop] at h
      split_ifs at h with hmem
      · exact ih h
      · exact ⟨_, randNum_drawn p.1 p.2 mask, hmem⟩
  · rintro ⟨i,⟨x,hx,rfl⟩,hfree⟩
    refine ⟨[(0, x)], x ||| mask, ?_, ?_⟩
    · intro p hp
      rw [List.mem_singleton] at hp
      subst hp
      unfold IsRand
      omega
    · have hx' : randNum 0 x = x := by
        rw [randNum_eq_mod]
        omega
      rw [allocLoop, hx', if_neg hfree]

/-- All the numbers that can be drawn. -/
def drawable (mask : ℕ) : Finset ℕ := (Finset.range (2^16)).image (· ||| mask)

theorem mem_drawable {mask i : ℕ} : i ∈ drawable mask ↔ Drawn mask i := by
  unfold drawable Drawn
  constructor
  · intro h
    obtain ⟨x,hx,rfl⟩ := Finset.mem_image.mp h
    have := Finset.mem_range.mp hx
    exact ⟨x, by omega, rfl⟩
  · rintro ⟨x,hx,rfl⟩
    exact Finset.mem_image.mpr ⟨x, Finset.mem_range.mpr (by omega), rfl⟩

/-- 2^16 files, or as many directories, are enough for the loop never to end. -/
theorem allocation_exhausted : (drawable 0x80000000).card < 2^31 ∧ (drawable 0).card < 2^31 ∧
    (∀ i ∈ drawable 0x80000000, isfile i = true) ∧ (∀ i ∈ drawable 0, isfile i = false) ∧
    (¬ ∃ a b, randNum a b ||| 0x80000000 ∉ drawable 0x80000000) ∧
    ¬ ∃ a b, randNum a b ||| 0 ∉ drawable 0 := by
  have hcard : ∀ mask, (drawable mask).card < 2^31 := by
    intro mask
    have hle := Finset.card_image_le (s := Finset.range (2^16)) (f := (· ||| mask))
    rw [Finset.card_range] at hle
    unfold drawable
    omega
  have hdrawn : ∀ mask, ¬ ∃ a b, randNum a b ||| mask ∉ drawable mask := by
    rintro mask ⟨a,b,hfree⟩
    exact hfree (mem_drawable.mpr (randNum_drawn a b mask))
  refine ⟨hcard _, hcard _, ?_, ?_, hdrawn _, hdrawn _⟩
  · intro i hi
    exact drawn_file (mem_drawable.mp hi)
  · intro i hi
    exact drawn_dir (mem_drawable.mp hi)

end DisconnectedYfs.YFS
