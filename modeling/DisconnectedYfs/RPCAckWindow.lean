import DisconnectedYfs.RPCLiveCalls
import Mathlib.Data.List.TakeWhile
import Mathlib.Order.Bounds.Defs

/-! The window of acknowledgements is exact: its front is the largest `n` such that everything up to
`n` has been reported, and above the front it is the reported xids. Every call reports its xid
twice, so the loop that pops the front runs over duplicates. -/
namespace DisconnectedYfs.RPC
open TraceSystem

/-- The `while` loop at an iterator on `x`, with the elements before the iterator. It must not pop
the element of the iterator itself. -/
def popFront (x : UInt32) : List UInt32 → Option (List UInt32)
  | [] => if x+1 == x then none else some []
  | y :: front => if y+1 == x then popFront x front else some (y :: front)

/-- `compress` with that check. -/
def compressAt : List UInt32 → List UInt32 → Option (List UInt32)
  | front, [] => some front
  | front, x :: rest => (popFront x front).bind fun front => compressAt (front ++ [x]) rest

/-- `update_xid_rep` with that check. The front of an empty list does not exist. -/
def updateXidRepAt (w : List UInt32) (xid : UInt32) : Option (List UInt32) :=
  match w with
  | [] => none
  | f :: _ =>
    if xid ≤ f then some w
    else
      match insertXid xid w with
      | [] => none
      | g :: rest => compressAt [g] rest

/-- The window after these reports. -/
def windowAfter (xs : List UInt32) : List UInt32 := xs.foldl (fun w x => updateWindow x w) [0]

/-- The front `f` ends the xids with `P` that have none missing below them, and what lies above it
is the rest of the xids with `P`. -/
structure WindowFront (P : UInt32 → Prop) (f : UInt32) (w : List UInt32) : Prop where
  head : w.head? = some f
  sorted : w.Pairwise (· ≤ ·)
  below : ∀ z, 1 ≤ z → z ≤ f → P z
  above : ∀ z, f < z → (z ∈ w ↔ P z)
  gap : f+1 ∉ w

section
variable {f g x y z : UInt32} {w xs front rest : List UInt32} {P : UInt32 → Prop}

theorem succ_toNat (h : f < 4294967295) : (f+1).toNat = f.toNat + 1 := by
  have hf : f.toNat < 4294967295 := UInt32.lt_iff_toNat_lt.mp h
  have hadd : (f+1).toNat = (f.toNat+1) % 2^32 := UInt32.toNat_add f 1
  omega

theorem succ_ne : f+1 ≠ f := by
  intro h
  have hadd : (f+1).toNat = (f.toNat+1) % 2^32 := UInt32.toNat_add f 1
  rw [h] at hadd
  have := f.toNat_lt
  omega

/-- There is nothing between an xid and its successor. -/
theorem eq_of_le_of_lt_succ (hf : f < 4294967295) (h : f ≤ y) (hy : y ≤ f+1) (hne : y ≠ f+1) :
    y = f := by
  have hsucc := succ_toNat hf
  have h1 := UInt32.le_iff_toNat_le.mp h
  have h2 := UInt32.le_iff_toNat_le.mp hy
  have h3 : y.toNat ≠ (f+1).toNat := fun h => hne (UInt32.toNat_inj.mp h)
  apply UInt32.toNat_inj.mp
  omega

theorem succ_le_of_lt (hf : f < 4294967295) (h : f < y) : f+1 ≤ y := by
  have hsucc := succ_toNat hf
  have hlt := UInt32.lt_iff_toNat_lt.mp h
  apply UInt32.le_iff_toNat_le.mpr
  omega

/-- No xid is its own successor, so the loop stops at the latest at the iterator. -/
theorem popFront_eq (x : UInt32) (front : List UInt32) :
    popFront x front = some (front.dropWhile (fun y => y+1 == x)) := by
  induction front with
  | nil => exact if_neg (fun h => succ_ne (eq_of_beq h))
  | cons y front ih =>
    unfold popFront
    rw [List.dropWhile_cons, ih]
    split_ifs <;> rfl

theorem compressAt_eq (front rest : List UInt32) :
    compressAt front rest = some (compress front rest) := by
  induction rest generalizing front with
  | nil => rfl
  | cons x rest ih =>
    rw [compressAt, popFront_eq, Option.bind_some, ih]
    rfl

theorem updateXidRepAt_eq (hw : w ≠ []) : updateXidRepAt w x = some (updateWindow x w) := by
  cases w with
  | nil => exact absurd rfl hw
  | cons f l =>
    unfold updateXidRepAt updateWindow
    dsimp only
    split_ifs with hle
    · rfl
    · have hins : insertXid x (f :: l) = f :: insertXid x l :=
        if_neg (fun hgt => hle (UInt32.le_of_lt hgt))
      rw [hins]
      exact compressAt_eq [f] _

theorem mem_insertXid_iff : y ∈ insertXid x w ↔ y = x ∨ y ∈ w := by
  refine ⟨mem_insertXid, ?_⟩
  induction w with
  | nil => exact fun h => h.elim (fun h => h ▸ List.mem_singleton_self x) (fun h => by cases h)
  | cons a w ih =>
    intro h
    unfold insertXid
    split_ifs
    · exact List.mem_cons.mpr h
    · rcases h with rfl | h
      · exact List.mem_cons_of_mem a (ih (Or.inl rfl))
      · rcases List.mem_cons.mp h with rfl | h
        · exact List.mem_cons_self
        · exact List.mem_cons_of_mem a (ih (Or.inr h))

/-- If the successor of the front is at the iterator, everything before the iterator goes: it is
copies of the front. -/
theorem dropWhile_of_succ (hhead : front.head? = some f) (hf : f < 4294967295)
    (hs : (front ++ (f+1) :: rest).Pairwise (· ≤ ·)) (hgap : f+1 ∉ front) :
    front.dropWhile (fun y => y+1 == f+1) = [] := by
  rw [List.dropWhile_eq_nil_iff]
  intro y hy
  obtain ⟨hfront,-,hle⟩ := List.pairwise_append.mp hs
  have hfy : f ≤ y := by
    cases front with
    | nil => cases hy
    | cons a front =>
      cases hhead
      rcases List.mem_cons.mp hy with rfl | hy
      · exact UInt32.le_refl _
      · exact (List.pairwise_cons.mp hfront).1 y hy
  have hyf := eq_of_le_of_lt_succ hf hfy (hle y hy _ List.mem_cons_self)
    (fun h => hgap (h ▸ hy))
  rw [hyf]
  exact beq_self_eq_true _

theorem dropWhile_of_ne (hhead : front.head? = some f) (hne : f+1 ≠ x) :
    front.dropWhile (fun y => y+1 == x) = front := by
  cases front with
  | nil => rfl
  | cons a front =>
    cases hhead
    rw [List.dropWhile_cons, if_neg (by simpa using hne)]

/-- What the loop makes of a list whose part before the iterator starts with `f` and does not have
the successor of `f`: the front moves up to `g` over elements of the list only, and what is above
`g` stays. -/
structure Compressed (f g : UInt32) (l w : List UInt32) : Prop where
  head : w.head? = some g
  sorted : w.Pairwise (· ≤ ·)
  mono : f ≤ g
  filled : ∀ z, f ≤ z → z ≤ g → z ∈ l
  above : ∀ z, g < z → (z ∈ w ↔ z ∈ l)
  gap : g+1 ∉ w

theorem compress_spec (hhead : front.head? = some f) (hs : (front ++ rest).Pairwise (· ≤ ·))
    (hgap : f+1 ∉ front) (hmax : ∀ y ∈ front ++ rest, y < 4294967295) :
    ∃ g, Compressed f g (front ++ rest) (compress front rest) := by
  have hmem : f ∈ front := List.mem_of_head? hhead
  have hf := hmax f (List.mem_append_left _ hmem)
  induction rest generalizing front f with
  | nil =>
    rw [List.append_nil] at hs ⊢
    refine ⟨f, hhead, hs, UInt32.le_refl _, ?_, fun _ _ => Iff.rfl, hgap⟩
    intro z hz hz'
    rw [UInt32.le_antisymm hz' hz]
    exact hmem
  | cons x rest ih =>
    by_cases hfx : f+1 = x
    · -- the front moves to the iterator
      subst hfx
      obtain ⟨-,hrest,hle⟩ := List.pairwise_append.mp hs
      have hxmem : f+1 ∈ front ++ (f+1) :: rest := List.mem_append_right _ List.mem_cons_self
      have hhead' : [f+1].head? = some (f+1) := rfl
      obtain ⟨g,h⟩ := ih hhead' hrest
        (fun h => succ_ne (List.mem_singleton.mp h))
        (fun y hy => hmax y (List.mem_append_right _ hy)) List.mem_cons_self (hmax _ hxmem)
      have hstep : compress front ((f+1) :: rest) = compress [f+1] rest := by
        rw [compress, dropWhile_of_succ hhead hf hs hgap, List.nil_append]
      rw [hstep]
      refine ⟨g, h.head, h.sorted, ?_, ?_, ?_, h.gap⟩
      · exact UInt32.le_trans (hle f hmem _ List.mem_cons_self) h.mono
      · intro z hz hz'
        by_cases hzf : z = f
        · exact List.mem_append_left _ (hzf ▸ hmem)
        · have hfz : f < z := UInt32.lt_of_le_of_ne hz (Ne.symm hzf)
          exact List.mem_append_right _ (h.filled z (succ_le_of_lt hf hfz) hz')
      · intro z hz
        rw [h.above z hz]
        refine ⟨List.mem_append_right _, fun hmem => ?_⟩
        refine (List.mem_append.mp hmem).resolve_left (fun hz' => ?_)
        have hzx : z ≤ g := UInt32.le_trans (hle z hz' _ List.mem_cons_self) h.mono
        exact UInt32.not_lt.mpr hzx hz
    · -- the iterator moves on
      have hassoc : front ++ x :: rest = (front ++ [x]) ++ rest := by
        rw [List.append_assoc]
        rfl
      have hstep : compress front (x :: rest) = compress (front ++ [x]) rest := by
        rw [compress, dropWhile_of_ne hhead hfx]
      rw [hassoc] at hs hmax ⊢
      rw [hstep]
      refine ih ?_ hs ?_ hmax (List.mem_append_left _ hmem) hf
      · rw [List.head?_append, hhead]
        rfl
      · intro h
        rcases List.mem_append.mp h with h | h
        · exact hgap h
        · exact hfx (List.mem_singleton.mp h)

theorem WindowFront.update (h : WindowFront P f w) (hx : x < 4294967295)
    (hw : ∀ y ∈ w, y < 4294967295) :
    ∃ g, WindowFront (fun z => P z ∨ z = x) g (updateWindow x w) := by
  cases w with
  | nil => exact absurd h.head (by simp)
  | cons f' l =>
    obtain rfl : f' = f := Option.some.inj h.head
    unfold updateWindow
    dsimp only
    split_ifs with hle
    · -- reported before
      refine ⟨f', h.head, h.sorted, fun z hz hz' => Or.inl (h.below z hz hz'), ?_, h.gap⟩
      intro z hz
      rw [h.above z hz]
      refine ⟨Or.inl, fun hz' => hz'.resolve_right ?_⟩
      rintro rfl
      exact UInt32.not_lt.mpr hle hz
    · have hfx : f' < x := UInt32.not_le.mp hle
      have hins : insertXid x (f' :: l) = f' :: insertXid x l :=
        if_neg (fun hgt => hle (UInt32.le_of_lt hgt))
      have hs := sorted_insertXid (x := x) h.sorted
      have hmem : ∀ z, z ∈ insertXid x (f' :: l) ↔ z = x ∨ z ∈ f' :: l :=
        fun z => mem_insertXid_iff
      rw [hins] at hs hmem ⊢
      have hmax : ∀ y ∈ f' :: insertXid x l, y < 4294967295 := by
        intro y hy
        rcases (hmem y).mp hy with rfl | hy
        · exact hx
        · exact hw y hy
      have hhead : [f'].head? = some f' := rfl
      obtain ⟨g,hg⟩ := compress_spec hhead (show ([f'] ++ insertXid x l).Pairwise (· ≤ ·) from hs)
        (fun h => succ_ne (List.mem_singleton.mp h)) hmax
      have hreported : ∀ z, f' < z → (z ∈ f' :: insertXid x l ↔ P z ∨ z = x) := by
        intro z hz
        rw [hmem z, h.above z hz, or_comm]
      refine ⟨g, hg.head, hg.sorted, ?_, ?_, hg.gap⟩
      · intro z hz hz'
        by_cases hzf : z ≤ f'
        · exact Or.inl (h.below z hz hzf)
        · have hfz := UInt32.not_le.mp hzf
          exact (hreported z hfz).mp (hg.filled z (UInt32.le_of_lt hfz) hz')
      · intro z hz
        rw [hg.above z hz]
        exact hreported z (UInt32.lt_of_le_of_lt hg.mono hz)

theorem mem_compress (h : y ∈ compress front rest) : y ∈ front ++ rest := by
  induction rest generalizing front with
  | nil =>
    rw [List.append_nil]
    exact h
  | cons x rest ih =>
    have hy := ih h
    simp only [List.mem_append, List.mem_cons, List.not_mem_nil, or_false] at hy ⊢
    rcases hy with (hy | hy) | hy
    · exact Or.inl ((List.dropWhile_sublist _).mem hy)
    · exact Or.inr (Or.inl hy)
    · exact Or.inr (Or.inr hy)

theorem mem_updateWindow (h : y ∈ updateWindow x w) : y = x ∨ y ∈ w := by
  unfold updateWindow at h
  split at h
  · exact Or.inr h
  · split_ifs at h
    · exact Or.inr h
    · split at h
      · cases h
      · rename_i hins
        rw [← mem_insertXid_iff, hins]
        exact mem_compress h

/-- What is in the window has been reported, or is the 0 it starts with. -/
theorem mem_windowAfter (h : y ∈ windowAfter xs) : y = 0 ∨ y ∈ xs := by
  induction xs using List.reverseRecOn with
  | nil => exact Or.inl (List.mem_singleton.mp h)
  | append_singleton xs x ih =>
    rw [windowAfter, List.foldl_append] at h
    rcases mem_updateWindow h with rfl | h
    · exact Or.inr (List.mem_append_right _ List.mem_cons_self)
    · exact (ih h).imp id (List.mem_append_left _)

theorem windowAfter_front (hxs : ∀ x ∈ xs, x < 4294967295) :
    ∃ f, WindowFront (· ∈ xs) f (windowAfter xs) := by
  induction xs using List.reverseRecOn with
  | nil =>
    refine ⟨0, rfl, List.pairwise_singleton _ _, ?_, ?_, by decide⟩
    · intro z hz hz'
      exact absurd (UInt32.le_trans hz hz') (by decide)
    · intro z hz
      refine iff_of_false (fun h => ?_) (fun h => by cases h)
      rw [List.mem_singleton.mp h] at hz
      exact absurd hz (by decide)
  | append_singleton xs x ih =>
    obtain ⟨f,hf⟩ := ih (fun y hy => hxs y (List.mem_append_left _ hy))
    have hw : ∀ y ∈ windowAfter xs, y < 4294967295 := by
      intro y hy
      rcases mem_windowAfter hy with rfl | hy
      · decide
      · exact hxs y (List.mem_append_left _ hy)
    obtain ⟨g,hg⟩ := hf.update (hxs x (List.mem_append_right _ List.mem_cons_self)) hw
    refine ⟨g, ?_⟩
    rw [windowAfter, List.foldl_append]
    refine ⟨hg.head, hg.sorted, ?_, ?_, hg.gap⟩
    · intro z hz hz'
      rw [List.mem_append, List.mem_singleton]
      exact hg.below z hz hz'
    · intro z hz
      rw [List.mem_append, List.mem_singleton]
      exact hg.above z hz

end

/-- After reports of xids below `2^32-1` in any order: the loops popped no element they were at,
the window is ordered, its front is the largest number up to which everything has been reported,
what is above the front is what has been reported there, and the successor of the front is not in
it. -/
theorem ack_window_exact {xs : List UInt32} (hxs : ∀ x ∈ xs, 1 ≤ x ∧ x ≤ 4294967294) :
    run updateXidRepAt [0] xs = some (windowAfter xs) ∧ (windowAfter xs).Pairwise (· ≤ ·) ∧
      ∃ n, (windowAfter xs).head? = some n ∧ IsGreatest {m | ∀ x, 1 ≤ x → x ≤ m → x ∈ xs} n ∧
        (∀ x, n < x → (x ∈ windowAfter xs ↔ x ∈ xs)) ∧ n+1 ∉ windowAfter xs := by
  have hlt : ∀ x ∈ xs, x < 4294967295 := by
    intro x hx
    exact UInt32.lt_of_le_of_lt (hxs x hx).2 (by decide)
  obtain ⟨n,hn⟩ := windowAfter_front hlt
  refine ⟨?_, hn.sorted, n, hn.head, ⟨hn.below, ?_⟩, hn.above, hn.gap⟩
  · clear hn
    induction xs using List.reverseRecOn with
    | nil => rfl
    | append_singleton xs x ih =>
      have hxs' := fun y hy => hxs y (List.mem_append_left [x] hy)
      have hlt' := fun y hy => hlt y (List.mem_append_left [x] hy)
      obtain ⟨f,hf⟩ := windowAfter_front hlt'
      have hne : windowAfter xs ≠ [] := fun h => by simpa [h] using hf.head
      refine run_snoc.mpr ⟨windowAfter xs, ih hxs' hlt', ?_⟩
      rw [updateXidRepAt_eq hne, windowAfter, windowAfter, List.foldl_append]
      rfl
  · -- the successor of the front has not been reported
    intro m hm
    by_contra hle
    have hnm := UInt32.not_le.mp hle
    have hmax : n < 4294967295 := by
      rcases mem_windowAfter (List.mem_of_head? hn.head) with h | h
      · rw [h]
        decide
      · exact hlt n h
    have hsucc : n < n+1 := by
      rw [UInt32.lt_iff_toNat_lt, succ_toNat hmax]
      exact Nat.lt_succ_self _
    have hone : 1 ≤ n+1 := by
      rw [UInt32.le_iff_toNat_le, succ_toNat hmax]
      exact Nat.le_add_left 1 _
    exact hn.gap ((hn.above _ hsucc).mpr (hm _ hone (succ_le_of_lt hmax hnm)))

/-- Reports out of order and twice. -/
theorem ack_window_here : windowAfter [2, 4, 1, 2, 4] = [2, 4, 4] ∧
    run updateXidRepAt [0] [2, 4, 1, 2, 4] = some (windowAfter [2, 4, 1, 2, 4]) ∧
      (windowAfter [2, 4, 1, 2, 4]).Pairwise (· ≤ ·) ∧
      ∃ n, (windowAfter [2, 4, 1, 2, 4]).head? = some n ∧
        IsGreatest {m | ∀ x, 1 ≤ x → x ≤ m → x ∈ ([2, 4, 1, 2, 4] : List UInt32)} n ∧
        (∀ x, n < x → (x ∈ windowAfter [2, 4, 1, 2, 4] ↔ x ∈ ([2, 4, 1, 2, 4] : List UInt32))) ∧
        n+1 ∉ windowAfter [2, 4, 1, 2, 4] :=
  ⟨by decide, ack_window_exact (by simp [UInt32.le_iff_toNat_le])⟩

end DisconnectedYfs.RPC
