import Mathlib.Data.List.Induction
import Mathlib.Data.Int.Basic
import Mathlib.Algebra.Group.Nat.Defs
import Mathlib.Algebra.Group.Int.Defs

/-! Finite maps kept as association lists in increasing key order, over any comparison that is a
strict weak order: the representation under which walking a map and inserting what was walked
into an empty one gives the map back. -/
namespace OrderedMap

universe u v
variable {α : Type u} {β : Type v}

/-- A comparison that is a strict weak order, given by its two defining laws. -/
structure Order (α : Type u) where
  lt : α → α → Bool
  asymm : ∀ a b, lt a b = true → lt b a = false
  negTrans : ∀ a b d, lt a b = false → lt b d = false → lt a d = false

namespace Order

theorem trans (o : Order α) {a b d : α} (hab : o.lt a b = true) (hbd : o.lt b d = true) :
    o.lt a d = true := by
  by_contra h
  have hdb := o.asymm b d hbd
  have hab' := o.negTrans a d b (Bool.not_eq_true _ ▸ h) hdb
  rw [hab] at hab'
  contradiction

/-- Values compared through an integer. -/
def ofKey (f : α → ℤ) : Order α where
  lt a b := decide (f a < f b)
  asymm a b h := by
    rw [decide_eq_true_eq] at h
    rw [decide_eq_false_iff_not]
    omega
  negTrans a b d h h' := by
    rw [decide_eq_false_iff_not] at h h' ⊢
    omega

/-- The comparison under which all values are equivalent. -/
def trivial : Order α where
  lt _ _ := false
  asymm _ _ h := by contradiction
  negTrans _ _ _ _ _ := rfl

/-- One step of a lexicographic comparison: `a` against `b`, then `r` if they are equivalent. -/
def thenLt (o : Order α) (a b : α) (r : Bool) : Bool := o.lt a b || (!o.lt b a && r)

theorem thenLt_asymm (o : Order α) {a b : α} {r r' : Bool} (hr : r = true → r' = false)
    (h : o.thenLt a b r = true) : o.thenLt b a r' = false := by
  have hab := o.asymm a b
  unfold thenLt at h ⊢
  cases hlt : o.lt a b <;> cases hgt : o.lt b a <;> simp_all

theorem thenLt_negTrans (o : Order α) {a b d : α} {r s q : Bool}
    (hr : r = false → s = false → q = false)
    (h : o.thenLt a b r = false) (h' : o.thenLt b d s = false) : o.thenLt a d q = false := by
  have hn := o.negTrans a b d
  have hba := o.negTrans b d a
  have hdb := o.negTrans d a b
  unfold thenLt at h h' ⊢
  cases hab : o.lt a b <;> cases hba' : o.lt b a <;> cases hbd : o.lt b d <;>
    cases hdb' : o.lt d b <;> cases hda : o.lt d a <;> simp_all

/-- The lexicographic comparison of two sequences. -/
def listLt (o : Order α) : List α → List α → Bool
  | _, [] => false
  | [], _ :: _ => true
  | a :: as, b :: bs => o.thenLt a b (listLt o as bs)

def list (o : Order α) : Order (List α) where
  lt := o.listLt
  asymm as bs := by
    induction as, bs using listLt.induct with
    | case1 as => intro h; simp [listLt] at h
    | case2 b bs => intro _; rfl
    | case3 a as b bs ih => intro h; exact o.thenLt_asymm ih h
  negTrans as bs := by
    induction as, bs using listLt.induct with
    | case1 as =>
      intro ds _ h
      cases ds with
      | nil => simp [listLt]
      | cons d ds => cases h
    | case2 b bs => intro ds h _; cases h
    | case3 a as b bs ih =>
      intro ds h h'
      cases ds with
      | nil => rfl
      | cons d ds => exact o.thenLt_negTrans (ih ds) h h'

/-- The lexicographic comparison of two pairs. -/
def pair (o : Order α) (q : Order β) : Order (α × β) where
  lt x y := o.thenLt x.1 y.1 (q.lt x.2 y.2)
  asymm x y h := o.thenLt_asymm (q.asymm x.2 y.2) h
  negTrans x y z h h' := o.thenLt_negTrans (q.negTrans x.2 y.2 z.2) h h'

end Order

/-- The entries of a map: their keys increase strictly. -/
def Increasing (o : Order α) (l : List (α × β)) : Prop :=
  l.Pairwise (fun x y => o.lt x.1 y.1 = true)

/-- Assign to the key equivalent to `a`, or put a new entry at the place of `a`. -/
def assign (o : Order α) (a : α) (b : β) : List (α × β) → List (α × β)
  | [] => [(a, b)]
  | x :: xs =>
    if o.lt x.1 a then x :: assign o a b xs
    else if o.lt a x.1 then (a, b) :: x :: xs
    else (x.1, b) :: xs

theorem mem_assign {o : Order α} {a : α} {b : β} {l : List (α × β)} {y : α × β}
    (h : y ∈ assign o a b l) : y.1 = a ∨ ∃ x ∈ l, x.1 = y.1 := by
  induction l with
  | nil =>
    rw [assign, List.mem_singleton] at h
    exact Or.inl (h ▸ rfl)
  | cons x xs ih =>
    rw [assign] at h
    split_ifs at h with h1 h2
    · rcases List.mem_cons.mp h with rfl | h
      · exact Or.inr ⟨y, List.mem_cons_self, rfl⟩
      · rcases ih h with h | ⟨z,hz,hzy⟩
        · exact Or.inl h
        · exact Or.inr ⟨z, List.mem_cons_of_mem x hz, hzy⟩
    · rcases List.mem_cons.mp h with rfl | h
      · exact Or.inl rfl
      · exact Or.inr ⟨y, h, rfl⟩
    · rcases List.mem_cons.mp h with rfl | h
      · exact Or.inr ⟨x, List.mem_cons_self, rfl⟩
      · exact Or.inr ⟨y, List.mem_cons_of_mem x h, rfl⟩

theorem increasing_assign {o : Order α} {l : List (α × β)} (a : α) (b : β)
    (h : Increasing o l) : Increasing o (assign o a b l) := by
  induction l with
  | nil => exact List.pairwise_singleton _ _
  | cons x xs ih =>
    obtain ⟨hx,hxs⟩ := List.pairwise_cons.mp h
    rw [assign]
    split_ifs with h1 h2
    · refine List.pairwise_cons.mpr ⟨?_, ih hxs⟩
      intro y hy
      rcases mem_assign hy with hya | ⟨z,hz,hzy⟩
      · rw [hya]
        exact h1
      · rw [← hzy]
        exact hx z hz
    · refine List.pairwise_cons.mpr ⟨?_, h⟩
      intro y hy
      rcases List.mem_cons.mp hy with rfl | hy
      · exact h2
      · exact o.trans h2 (hx y hy)
    · exact List.pairwise_cons.mpr ⟨hx, hxs⟩

/-- An entry above all others goes to the end. -/
theorem assign_last {o : Order α} {l : List (α × β)} {a : α} {b : β}
    (h : ∀ x ∈ l, o.lt x.1 a = true) : assign o a b l = l ++ [(a, b)] := by
  induction l with
  | nil => rfl
  | cons x xs ih =>
    rw [assign, if_pos (h x List.mem_cons_self), List.cons_append,
      ih (fun y hy => h y (List.mem_cons_of_mem x hy))]

/-- A map from `α` to `β` with keys ordered by `o`. -/
def OMap (o : Order α) (β : Type v) := { l : List (α × β) // Increasing o l }

namespace OMap
variable {o : Order α}

def empty : OMap o β := ⟨[], List.Pairwise.nil⟩

def insert (d : OMap o β) (a : α) (b : β) : OMap o β :=
  ⟨assign o a b d.1, increasing_assign a b d.2⟩

/-- Maps are compared as the sequences of their entries. -/
def order (o : Order α) (q : Order β) : Order (OMap o β) where
  lt x y := (o.pair q).list.lt x.1 y.1
  asymm x y := (o.pair q).list.asymm x.1 y.1
  negTrans x y z := (o.pair q).list.negTrans x.1 y.1 z.1

/-- Inserting the first entries of an increasing list into the empty map, in their order. -/
theorem insert_snoc {l : List (α × β)} {x : α × β} (h : Increasing o (l ++ [x])) (d : OMap o β)
    (hd : d.1 = l) : (d.insert x.1 x.2).1 = l ++ [x] := by
  have hl := (List.pairwise_append.mp h).2.2
  change assign o x.1 x.2 d.1 = l ++ [x]
  rw [hd]
  exact assign_last (fun y hy => hl y hy x (List.mem_singleton.mpr rfl))

end OMap
end OrderedMap
