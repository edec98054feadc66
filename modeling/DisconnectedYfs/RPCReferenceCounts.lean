import DisconnectedYfs.RPCReferences

/-! The reference count of a connection against the number of its holders: what each step of
`dispatch` does to both. -/
namespace DisconnectedYfs.RPC

section Counts
variable {α : Type} {f : α → Bool} {l : List α} {i : ℕ} {x y : α}

theorem countP_set_some (h : l[i]? = some x) :
    (l.set i y).countP f+(if f x then 1 else 0) = l.countP f+(if f y then 1 else 0) := by
  induction l generalizing i with
  | nil => cases h
  | cons z l ih =>
    cases i with
    | zero =>
      cases h
      simp only [List.set_cons_zero, List.countP_cons]
      omega
    | succ i =>
      have := ih (i := i) h
      simp only [List.set_cons_succ, List.countP_cons]
      omega

theorem countP_eraseIdx_some (h : l[i]? = some x) :
    (l.eraseIdx i).countP f+(if f x then 1 else 0) = l.countP f := by
  induction l generalizing i with
  | nil => cases h
  | cons z l ih =>
    cases i with
    | zero =>
      cases h
      simp only [List.eraseIdx_cons_zero, List.countP_cons]
    | succ i =>
      have := ih (i := i) h
      simp only [List.eraseIdx_cons_succ, List.countP_cons]
      omega

end Counts

section Slots
variable {l : List (UInt32 × Option ℕ)} {n : UInt32} {p q : Option ℕ}

theorem lookup_cons_eq (n m : UInt32) (q : Option ℕ) (l : List (UInt32 × Option ℕ)) :
    ((m, q) :: l).lookup n = if n = m then some q else l.lookup n := by
  rw [List.lookup_cons]
  by_cases h : n = m
  · simp [h]
  · rw [beq_eq_false_iff_ne.mpr h, if_neg h]

theorem countP_assign_new {c : ℕ} (h : l.lookup n = none) :
    (assign n p l).countP (·.2 = some c) =
      l.countP (·.2 = some c)+(if p = some c then 1 else 0) := by
  induction l with
  | nil => simp [assign, List.countP_cons]
  | cons x l ih =>
    obtain ⟨m,r⟩ := x
    rw [lookup_cons_eq] at h
    split_ifs at h with hm
    have := ih h
    simp only [assign, if_neg (Ne.symm hm), List.countP_cons]
    omega

theorem countP_assign_old {c : ℕ} (h : l.lookup n = some q) :
    (assign n p l).countP (·.2 = some c)+(if q = some c then 1 else 0) =
      l.countP (·.2 = some c)+(if p = some c then 1 else 0) := by
  induction l with
  | nil => cases h
  | cons x l ih =>
    obtain ⟨m,r⟩ := x
    rw [lookup_cons_eq] at h
    split_ifs at h with hm
    · subst hm
      cases h
      simp only [assign, if_true, List.countP_cons, decide_eq_true_eq]
      omega
    · have := ih h
      simp only [assign, if_neg (Ne.symm hm), List.countP_cons]
      omega

end Slots

namespace ServerConns

/-- How many references nobody holds. -/
def excess (s : ServerConns) (c : ℕ) : ℤ := s.refno c-s.holders c

section
variable {s s' : ServerConns} {c d j : ℕ} {n : UInt32} {job : Job} {e : ConnEvent}

theorem incref_eq (h : s.incref c = some s') : ∃ o, s.objs c = some o ∧
    s' = { s with objs := Function.update s.objs c (some { o with refno := o.refno+1 }) } := by
  obtain ⟨o,ho,rfl⟩ := Option.map_eq_some_iff.mp h
  exact ⟨o, ho, rfl⟩

theorem decref_eq (h : s.decref c = some s') : ∃ o, s.objs c = some o ∧ 0 ≤ o.refno-1 ∧
    s' = { s with
      objs := Function.update s.objs c
        (if o.refno-1 = 0 ∧ o.dead = true then none else some { o with refno := o.refno-1 }) } := by
  unfold decref at h
  split at h
  · cases h
  · rename_i o ho
    by_cases hneg : o.refno-1 < 0
    · rw [if_pos hneg] at h
      cases h
    · rw [if_neg hneg] at h
      cases h
      exact ⟨o, ho, by omega, rfl⟩

theorem refno_incref (h : s.incref c = some s') (d : ℕ) :
    s'.refno d = s.refno d+(if d = c then 1 else 0) := by
  obtain ⟨o,ho,rfl⟩ := incref_eq h
  unfold refno
  by_cases hd : d = c
  · subst hd
    simp [ho]
  · simp [hd]

theorem refno_decref (h : s.decref c = some s') (d : ℕ) :
    s'.refno d = s.refno d-(if d = c then 1 else 0) := by
  obtain ⟨o,ho,-,rfl⟩ := decref_eq h
  unfold refno
  by_cases hd : d = c
  · subst hd
    by_cases hz : o.refno-1 = 0 ∧ o.dead = true
    · simp [ho, hz]
    · simp [ho, hz]
  · simp [hd]

/-- A change of the count alone. -/
theorem excess_incref (h : s.incref c = some s') (d : ℕ) :
    s'.excess d = s.excess d+(if d = c then 1 else 0) := by
  have hr := refno_incref h d
  obtain ⟨o,-,rfl⟩ := incref_eq h
  have hh : ({ s with objs := Function.update s.objs c (some { o with refno := o.refno+1 }) } :
    ServerConns).holders d = s.holders d := rfl
  unfold excess
  rw [hr, hh]
  omega

theorem excess_decref (h : s.decref c = some s') (d : ℕ) :
    s'.excess d = s.excess d-(if d = c then 1 else 0) := by
  have hr := refno_decref h d
  obtain ⟨o,-,-,rfl⟩ := decref_eq h
  unfold excess
  rw [hr]
  unfold holders
  dsimp only
  omega

/-- A job that changes its connection from `p`. -/
theorem excess_set {p : Option ℕ} (hj : s.jobs[j]? = some job) (hp : job.conn = p) (job' : Job)
    (d : ℕ) : ({ s with jobs := s.jobs.set j job' } : ServerConns).excess d =
      s.excess d+(if p = some d then 1 else 0)-(if job'.conn = some d then 1 else 0) := by
  have h := countP_set_some (f := fun job : Job => decide (job.conn = some d)) (y := job') hj
  subst hp
  simp only [decide_eq_true_eq] at h
  unfold excess refno holders
  dsimp only
  split_ifs at h ⊢ <;> omega

theorem excess_erase {p : Option ℕ} (hj : s.jobs[j]? = some job) (hp : job.conn = p) (d : ℕ) :
    ({ s with jobs := s.jobs.eraseIdx j } : ServerConns).excess d =
      s.excess d+(if p = some d then 1 else 0) := by
  have h := countP_eraseIdx_some (f := fun job : Job => decide (job.conn = some d)) hj
  subst hp
  simp only [decide_eq_true_eq] at h
  unfold excess refno holders
  dsimp only
  split_ifs at h ⊢ <;> omega

theorem excess_assign_new (h : s.slots.lookup n = none) (p : Option ℕ) (d : ℕ) :
    ({ s with slots := assign n p s.slots } : ServerConns).excess d =
      s.excess d-(if p = some d then 1 else 0) := by
  have hc := countP_assign_new (p := p) (c := d) h
  unfold excess refno holders
  dsimp only
  split_ifs at hc ⊢ <;> omega

theorem excess_assign_old {q : Option ℕ} (h : s.slots.lookup n = some q) (p : Option ℕ) (d : ℕ) :
    ({ s with slots := assign n p s.slots } : ServerConns).excess d =
      s.excess d+(if q = some d then 1 else 0)-(if p = some d then 1 else 0) := by
  have hc := countP_assign_old (p := p) (c := d) h
  unfold excess refno holders
  dsimp only
  split_ifs at hc ⊢ <;> omega

theorem incref_frame (h : s.incref c = some s') : s'.slots = s.slots ∧ s'.jobs = s.jobs := by
  obtain ⟨o,-,rfl⟩ := incref_eq h
  exact ⟨rfl, rfl⟩

theorem decref_frame (h : s.decref c = some s') : s'.slots = s.slots ∧ s'.jobs = s.jobs := by
  obtain ⟨o,-,-,rfl⟩ := decref_eq h
  exact ⟨rfl, rfl⟩

theorem save_cases (h : s.save n c = some s') :
    (s.slots.lookup n = none ∧ ∃ s₁, s.incref c = some s₁ ∧
      s' = { s₁ with slots := assign n (some c) s₁.slots }) ∨
    ∃ d, s.slots.lookup n = some (some d) ∧
      ((compareTime (s.createTime d) (s.createTime c) < 0 ∧ ∃ s₁ s₂, s.decref d = some s₁ ∧
        s₁.incref c = some s₂ ∧ s' = { s₂ with slots := assign n (some c) s₂.slots }) ∨
      (¬ compareTime (s.createTime d) (s.createTime c) < 0 ∧ s' = s)) := by
  unfold save at h
  split at h
  · rename_i hn
    obtain ⟨s₁,h₁,rfl⟩ := Option.map_eq_some_iff.mp h
    exact Or.inl ⟨hn, s₁, h₁, rfl⟩
  · cases h
  · rename_i d hn
    refine Or.inr ⟨d, hn, ?_⟩
    split_ifs at h with hobj hcmp
    · obtain ⟨s₁,h₁,h⟩ := Option.bind_eq_some_iff.mp h
      obtain ⟨s₂,h₂,rfl⟩ := Option.map_eq_some_iff.mp h
      exact Or.inl ⟨hcmp, s₁, s₂, h₁, h₂, rfl⟩
    · cases h
      exact Or.inr ⟨hcmp, rfl⟩

/-- `save` changes objects and entries only. -/
theorem save_only (h : s.save n c = some s') :
    s' = { s with objs := s'.objs, slots := s'.slots } := by
  rcases save_cases h with ⟨-,s₁,h₁,rfl⟩ | ⟨d,-,⟨-,s₁,s₂,h₁,h₂,rfl⟩ | ⟨-,rfl⟩⟩
  · obtain ⟨o,-,rfl⟩ := incref_eq h₁
    rfl
  · obtain ⟨o₁,-,-,rfl⟩ := decref_eq h₁
    obtain ⟨o₂,-,rfl⟩ := incref_eq h₂
    rfl
  · rfl

/-- What is saved is counted, and what it displaces no longer. -/
theorem excess_save (h : s.save n c = some s') (d : ℕ) :
    s'.excess d = s.excess d ∧ s'.jobs = s.jobs := by
  rcases save_cases h with ⟨hn,s₁,h₁,rfl⟩ | ⟨q,hn,⟨-,s₁,s₂,h₁,h₂,rfl⟩ | ⟨-,rfl⟩⟩
  · obtain ⟨hslots,hjobs⟩ := incref_frame h₁
    refine ⟨?_, hjobs⟩
    rw [excess_assign_new (hslots ▸ hn), excess_incref h₁]
    simp only [Option.some.injEq, eq_comm]
    omega
  · obtain ⟨hslots₁,hjobs₁⟩ := decref_frame h₁
    obtain ⟨hslots₂,hjobs₂⟩ := incref_frame h₂
    refine ⟨?_, hjobs₂.trans hjobs₁⟩
    rw [excess_assign_old (hslots₂.trans hslots₁ ▸ hn), excess_incref h₂, excess_decref h₁]
    simp only [Option.some.injEq, eq_comm]
    omega
  · exact ⟨rfl, rfl⟩

/-- A null pointer is nobody's reference. -/
theorem excess_subscript (s : ServerConns) (n : UInt32) (d : ℕ) :
    ({ s with slots := (subscript n s.slots).1 } : ServerConns).excess d = s.excess d := by
  unfold subscript
  rcases hn : s.slots.lookup n with _ | p
  · dsimp only
    rw [excess_assign_new hn]
    simp
  · rfl

theorem excess_toSend (hj : s.jobs[j]? = some job) (hc : job.conn = some c) (p : Option ℕ)
    (d : ℕ) : (s.toSend j job p).excess d =
      s.excess d+(if c = d then 1 else 0)-(if p = some d then 1 else 0) := by
  unfold toSend
  rw [excess_set hj hc]
  simp only [Option.some.injEq]

/-- With the entry that `conns_[clt_nonce]` may have made. -/
def looked (s : ServerConns) (job : Job) : ServerConns :=
  { s with slots := (subscript job.header.cltNonce s.slots).1 }

def latest (s : ServerConns) (job : Job) : Option ℕ := (subscript job.header.cltNonce s.slots).2

/-- The connection stays, or it is dead and not the one that is saved. -/
theorem switch_cases {dead : Bool} (h : s.switch j job c dead = some s') :
    (dead = false ∧ s' = s.toSend j job (some c)) ∨
    (dead = true ∧ s.latest job = some c ∧ s' = (s.looked job).toSend j job (some c)) ∨
    (dead = true ∧ s.latest job ≠ some c ∧ ∃ s₁, (s.looked job).decref c = some s₁ ∧
      ((s.latest job = none ∧ s' = { s₁.toSend j job none with crashed := true }) ∨
      ∃ d s₂, s.latest job = some d ∧ s₁.incref d = some s₂ ∧ s' = s₂.toSend j job (some d))) := by
  unfold switch at h
  cases dead with
  | false =>
    cases h
    exact Or.inl ⟨rfl, rfl⟩
  | true =>
    rw [if_pos rfl] at h
    dsimp only at h
    split_ifs at h with hsame
    · cases h
      exact Or.inr (Or.inl ⟨rfl, hsame, rfl⟩)
    · obtain ⟨s₁,h₁,h⟩ := Option.bind_eq_some_iff.mp h
      refine Or.inr (Or.inr ⟨rfl, hsame, s₁, h₁, ?_⟩)
      split at h
      · rename_i hnone
        cases h
        exact Or.inl ⟨hnone, rfl⟩
      · rename_i d hd
        obtain ⟨s₂,h₂,rfl⟩ := Option.map_eq_some_iff.mp h
        exact Or.inr ⟨d, s₂, hd, h₂, rfl⟩

theorem switch_only {dead : Bool} (h : s.switch j job c dead = some s') :
    s' = { s with objs := s'.objs, slots := s'.slots, jobs := s'.jobs, crashed := s'.crashed } := by
  rcases switch_cases h with ⟨-,rfl⟩ | ⟨-,-,rfl⟩ | ⟨-,-,s₁,h₁,⟨-,rfl⟩ | ⟨d,s₂,-,h₂,rfl⟩⟩
  · rfl
  · rfl
  · obtain ⟨o,-,-,rfl⟩ := decref_eq h₁
    rfl
  · obtain ⟨o₁,-,-,rfl⟩ := decref_eq h₁
    obtain ⟨o₂,-,rfl⟩ := incref_eq h₂
    rfl

theorem excess_switch {dead : Bool} (hj : s.jobs[j]? = some job) (hc : job.conn = some c)
    (h : s.switch j job c dead = some s') (d : ℕ) : s'.excess d = s.excess d := by
  have hsub := excess_subscript s job.header.cltNonce d
  change (s.looked job).excess d = s.excess d at hsub
  have hlooked : (s.looked job).jobs[j]? = some job := hj
  rcases switch_cases h with ⟨-,rfl⟩ | ⟨-,-,rfl⟩ | ⟨-,-,s₁,h₁,h⟩
  · rw [excess_toSend hj hc]
    simp only [Option.some.injEq]
    omega
  · rw [excess_toSend hlooked hc, hsub]
    simp only [Option.some.injEq]
    omega
  · -- the job gives up its connection for the one that is saved
    have hj₁ : s₁.jobs[j]? = some job := by
      rw [(decref_frame h₁).2]
      exact hj
    have hdec := excess_decref h₁ d
    rcases h with ⟨-,rfl⟩ | ⟨q,s₂,-,h₂,rfl⟩
    · change (s₁.toSend j job none).excess d = s.excess d
      rw [excess_toSend hj₁ hc, hdec, hsub]
      simp only [eq_comm, reduceCtorEq, if_false]
      omega
    · rw [excess_toSend ((incref_frame h₂).2 ▸ hj₁) hc, excess_incref h₂, hdec, hsub]
      simp only [Option.some.injEq, eq_comm]
      omega

/-- The event is the return of a `dispatch` that has refused a request on the connection `c`. -/
def leaks (s : ServerConns) (c : ℕ) : ConnEvent → Bool
  | .refused j => (s.jobs[j]?).any (fun job => job.conn = some c)
  | _ => false

/-- Every step changes the count as it changes the holders, but for one: the `dispatch` of a request
for another instance returns without giving its reference back. -/
theorem excess_step (h : s.step e = some s') (c : ℕ) :
    s'.excess c = s.excess c+(if s.leaks c e then 1 else 0) := by
  have hm := (step_moves h).2
  clear h
  cases hm with
  | accept hnew =>
    unfold excess refno holders
    simp only [leaks, List.count_cons, beq_iff_eq, Bool.false_eq_true, if_false]
    by_cases hc : c = s.next
    · subst hc
      simp only [Function.update_self, hnew, Option.map_some, Option.map_none, Option.getD_some,
        Option.getD_none, if_true]
      omega
    · rw [Function.update_of_ne hc, if_neg (Ne.symm hc)]
      omega
  | @collect d s₁ ho hd h =>
    have hdec := excess_decref h c
    have hin : d ∈ s₁.table := by
      obtain ⟨o,-,-,rfl⟩ := decref_eq h
      exact hd
    unfold excess refno holders at *
    simp only [leaks, Bool.false_eq_true, if_false] at *
    by_cases hc : c = d
    · subst hc
      have hpos := List.count_pos_iff.mpr hin
      rw [List.count_erase_self]
      simp only [if_true] at hdec
      omega
    · rw [List.count_erase_of_ne hc]
      simp only [if_neg hc] at hdec
      omega
  | @die d o ho =>
    have hr : ∀ x, ({ s with objs := Function.update s.objs d (some { o with dead := true }) } :
        ServerConns).refno x = s.refno x := by
      intro x
      unfold refno
      by_cases hx : x = d
      · subst hx
        simp [ho]
      · simp [hx]
    unfold excess
    rw [hr]
    simp [leaks, holders]
  | @queue d r s₁ pdu ho h =>
    have hinc := excess_incref h c
    unfold excess refno holders at *
    simp only [leaks, Bool.false_eq_true, if_false, List.countP_append, List.countP_singleton,
      decide_eq_true_eq, Option.some.injEq] at *
    split_ifs at * <;> omega
  | drop pdu ho h₁ h₂ =>
    rw [excess_decref h₂, excess_incref h₁]
    simp only [leaks, Bool.false_eq_true, if_false]
    omega
  | malformed hj hst hc hbad h =>
    rw [excess_erase ((decref_frame h).2 ▸ hj) hc, excess_decref h]
    simp only [leaks, Bool.false_eq_true, if_false, Option.some.injEq, eq_comm]
    omega
  | refuse hj hst hc hok hr | goAhead hj hst hc hok hr | pass hj hst hc hn =>
    rw [excess_set hj rfl]
    simp only [leaks, Bool.false_eq_true, if_false]
    omega
  | refused hj hst hc =>
    rw [excess_erase hj rfl]
    simp only [leaks, hj, Option.any_some, decide_eq_true_eq]
  | @check j job d s₁ stat hj hst hc hn h =>
    obtain ⟨hsave,hjobs⟩ := excess_save h c
    change ({ s₁ with jobs := s₁.jobs.set j { job with stage := afterCheck stat } } :
      ServerConns).excess c = _
    rw [excess_set (hjobs ▸ hj) rfl, hsave]
    simp only [leaks, Bool.false_eq_true, if_false]
    omega
  | handled hj hst hc ho h =>
    rw [excess_switch hj hc h]
    simp [leaks]
  | finish hj hst hc h =>
    rw [excess_erase ((decref_frame h).2 ▸ hj) hc, excess_decref h]
    simp only [leaks, Bool.false_eq_true, if_false, Option.some.injEq, eq_comm]
    omega

end

end ServerConns

end DisconnectedYfs.RPC
