import DisconnectedYfs.YFSSystem
import DisconnectedYfs.YFSMoveSimulation
import DisconnectedYfs.YFSLockInvariant
import Mathlib.Data.List.Count
import Mathlib.Algebra.GroupWithZero.Nat

/-! Every step of the system follows the protocol of each single lock. -/
namespace DisconnectedYfs.YFS
open Std

/-- One lock of the system, where `g A` is what goes on about it at client `A`. -/
def Sys.view (s : Sys) (l : ℕ) (g : ℕ → Option (Agent × Role)) : LockView where
  owner := (s.lockTable.info l).owner
  waiting := (s.lockTable.info l).waiting
  pending B := s.retries.count (l, B)
  party A := (s.client A).party l (g A)
  mark B T := (s.thread B T).marks l
  extent := s.table[l]?

/-- `g` is what goes on about the lock, and the lock server's entry is of the form that its
handlers leave. -/
structure Sys.Tracks (s : Sys) (l : ℕ) (g : ℕ → Option (Agent × Role)) : Prop where
  agents : ∀ A, (s.client A).Agents l (g A)
  locked : (s.lockTable.info l).locked = (s.lockTable.info l).owner.isSome

/-- Which step of the protocol of lock `l` an event may be. -/
def Accounts (s : Sys) (e : Event) (l : ℕ) : LockEvent → Prop
  | .party A k => ∃ T m, e = .client A T m ∧ Explains (s.client A) s.table T m l k
  | .revoke o =>
    ∃ B T rest, e = .revoke B T ∧ (s.thread B T).calls = .acquire l (.revoking o .sent) :: rest
  | .disconnect A => e = .disconnect A
  | _ => True

/-- The event is a step of the protocol of lock `l`, or does not concern it. -/
def Progress (s : Sys) (e : Event) (s' : Sys) (l : ℕ) (g g' : ℕ → Option (Agent × Role)) : Prop :=
  s'.view l g' = s.view l g ∨
    ∃ k, Accounts s e l k ∧ LockStep k (s.view l g) (s'.view l g')

section Updates
variable (s : Sys) (A B T U l : ℕ) (c : Client) (calls : List Call)

@[simp] theorem client_setClient :
    (s.setClient A c).client B = if A = B then c else s.client B := by
  simp only [Sys.setClient, Sys.client, ExtTreeMap.getElem?_insert,
    LawfulEqCmp.compare_eq_iff_eq]
  split_ifs <;> rfl

@[simp] theorem client_setCalls : (s.setCalls A T calls).client B =
    if A = B then (s.client A).setCalls T calls else s.client B :=
  client_setClient s A B _

end Updates

theorem view_eq_of {s : Sys} {l : ℕ} {g : ℕ → Option (Agent × Role)} {v : LockView}
    (howner : (s.lockTable.info l).owner = v.owner)
    (hwaiting : (s.lockTable.info l).waiting = v.waiting)
    (hpending : ∀ B, s.retries.count (l, B) = v.pending B)
    (hparty : ∀ A, (s.client A).party l (g A) = v.party A)
    (hmark : ∀ B T, (s.thread B T).marks l = v.mark B T) (hextent : s.table[l]? = v.extent) :
    s.view l g = v := by
  obtain ⟨o,w,p,q,m,x⟩ := v
  simp only [Sys.view, LockView.mk.injEq]
  exact ⟨howner, hwaiting, funext hpending, funext hparty,
    funext fun B => funext fun T => hmark B T, hextent⟩

section Moves
variable {s s' : Sys} {A T l : ℕ} {g : ℕ → Option (Agent × Role)} {c' : Client}

/-- A step that changes one client and the extents, seen from one lock. -/
theorem view_move (hc : ∀ B, s'.client B = if A = B then c' else s.client B)
    (hl : s'.lockTable = s.lockTable) (hr : s'.retries = s.retries)
    (hm : ∀ U, (c'.thread U).marks l = (s.thread A U).marks l) (gA : Option (Agent × Role)) :
    s'.view l (Function.update g A gA) =
      { (s.view l g).setParty A (c'.party l gA) with extent := s'.table[l]? } := by
  apply view_eq_of
  · rw [hl]; rfl
  · rw [hl]; rfl
  · intro B; rw [hr]; rfl
  · intro B
    rw [hc]
    by_cases hB : A = B
    · subst hB; simp
    · simp [hB, Ne.symm hB, Sys.view]
  · intro B U
    rw [Sys.thread, hc]
    split_ifs with hB
    · subst hB; exact hm U
    · rfl
  · rfl

theorem tracks_move (ht : s.Tracks l g) (hc : ∀ B, s'.client B = if A = B then c' else s.client B)
    (hl : s'.lockTable = s.lockTable) {gA : Option (Agent × Role)} (ha : c'.Agents l gA) :
    s'.Tracks l (Function.update g A gA) := by
  refine ⟨?_, by rw [hl]; exact ht.locked⟩
  intro B
  rw [hc]
  by_cases hB : A = B
  · subst hB; simpa using ha
  · simpa [hB, Ne.symm hB] using ht.agents B

/-- Nothing that the lock is about changes. -/
theorem view_same (hi : s'.lockTable.info l = s.lockTable.info l)
    (hr : ∀ B, s'.retries.count (l, B) = s.retries.count (l, B))
    (hc : ∀ B, (s'.client B).party l (g B) = (s.client B).party l (g B))
    (hm : ∀ B U, (s'.thread B U).marks l = (s.thread B U).marks l)
    (hx : s'.table[l]? = s.table[l]?) : s'.view l g = s.view l g := by
  apply view_eq_of
  · rw [hi]; rfl
  · rw [hi]; rfl
  · exact hr
  · exact hc
  · exact hm
  · exact hx

end Moves

/-- The lock goes on following its protocol. -/
def Advances (s : Sys) (e : Event) (s' : Sys) (l : ℕ) (g : ℕ → Option (Agent × Role)) : Prop :=
  ∃ g', s'.Tracks l g' ∧ Progress s e s' l g g'

section Advances
variable {s s' : Sys} {e : Event} {A B T l lid o : ℕ} {g : ℕ → Option (Agent × Role)}
  {rest : List Call} {f f' : Call} {m : Move}

theorem setParty_self (v : LockView) (A : ℕ) : v.setParty A (v.party A) = v := by
  unfold LockView.setParty
  rw [Function.update_eq_self]

theorem same_advances (ht : s.Tracks l g) (ha : ∀ B, (s'.client B).Agents l (g B))
    (hi : s'.lockTable.info l = s.lockTable.info l)
    (hr : ∀ B, s'.retries.count (l, B) = s.retries.count (l, B))
    (hc : ∀ B, (s'.client B).party l (g B) = (s.client B).party l (g B))
    (hm : ∀ B U, (s'.thread B U).marks l = (s.thread B U).marks l)
    (hx : s'.table[l]? = s.table[l]?) : Advances s e s' l g := by
  refine ⟨g, ⟨ha, ?_⟩, Or.inl (view_same hi hr hc hm hx)⟩
  rw [hi]
  exact ht.locked

/-- A step that changes neither clients nor server tables. -/
theorem stutter_advances (ht : s.Tracks l g) (hc : s'.clients = s.clients)
    (hl : s'.lockTable = s.lockTable) (hr : s'.retries = s.retries) (hx : s'.table = s.table) :
    Advances s e s' l g := by
  have hclient : ∀ B, s'.client B = s.client B := by
    intro B
    rw [Sys.client, hc]
    rfl
  apply same_advances ht
  · intro B; rw [hclient]; exact ht.agents B
  · rw [hl]
  · intro B; rw [hr]
  · intro B; rw [hclient]
  · intro B U; rw [Sys.thread, hclient]; rfl
  · rw [hx]

theorem client_advances (hfit : (s.client A).Fit) (hset : (s.client A).Settled)
    (ht : s.Tracks l g) (hg : Good (s.view l g)) (h : s.step (.client A T m) = some s') :
    Advances s (.client A T m) s' l g := by
  simp only [Sys.step] at h
  split_ifs at h with hup
  split at h
  · cases h
  · rename_i c' t' hmove
    cases h
    obtain ⟨hfollow,hmarks,-⟩ := move_follows hfit hset hmove
    obtain ⟨g',hag,hstep⟩ := hfollow l (g A) (ht.agents A) (hg.fits A)
    have hc : ∀ B, ({ s.setClient A c' with table := t' } : Sys).client B =
        if A = B then c' else s.client B := fun B => client_setClient s A B c'
    refine ⟨_, tracks_move ht hc rfl hag, ?_⟩
    rw [Progress, view_move hc rfl rfl (fun U => hmarks U l) g']
    obtain ⟨hparty,hx⟩ | ⟨k,hk,hstep⟩ := hstep
    · left
      rw [hparty]
      change { (s.view l g).setParty A ((s.view l g).party A) with extent := t'[l]? } = s.view l g
      rw [setParty_self, hx]
      rfl
    · exact Or.inr ⟨.party A k, ⟨T, m, rfl, hk⟩, .party hstep⟩
  · cases h
    have hc : ∀ B, (s.setClient A { s.client A with aborted := true }).client B =
        if A = B then { s.client A with aborted := true } else s.client B :=
      fun B => client_setClient s A B _
    apply same_advances ht
    · intro B
      rw [hc]
      split_ifs with hB
      · subst hB; exact ht.agents A
      · exact ht.agents B
    · rfl
    · intro B; rfl
    · intro B
      rw [hc]
      split_ifs with hB
      · subst hB; rfl
      · rfl
    · intro B U
      rw [Sys.thread, hc]
      split_ifs with hB
      · subst hB; rfl
      · rfl
    · rfl
  · cases h
    exact stutter_advances ht rfl rfl rfl rfl

/-- The current call of thread `T` of `B` becomes `f'`, and no other stack changes. -/
def Replaces (s s' : Sys) (B T : ℕ) (f' : Call) (rest : List Call) : Prop :=
  ∀ C U, s'.thread C U = if B = C ∧ T = U then
    ⟨f' :: rest, (s.thread B T).held, (s.thread B T).unlinking⟩ else s.thread C U

theorem replaces_setCalls (s : Sys) (B T : ℕ) (f' : Call) (rest : List Call) :
    Replaces s (s.setCalls B T (f' :: rest)) B T f' rest := by
  intro C U
  rw [Sys.thread, client_setCalls]
  by_cases hB : B = C
  · subst hB
    rw [if_pos rfl, thread_setCalls]
    simp only [true_and]
    rfl
  · simp only [hB, false_and, if_false]
    rfl

/-- The same, after a step at client `o` that touches no stack. -/
theorem replaces_answer (c' : Client) (hc : ∀ U, c'.thread U = s.thread o U) (B T : ℕ) (f' : Call)
    (rest : List Call) : Replaces s ((s.setClient o c').setCalls B T (f' :: rest)) B T f' rest := by
  have hthread : ∀ C U, (s.setClient o c').thread C U = s.thread C U := by
    intro C U
    rw [Sys.thread, client_setClient]
    split_ifs with hC
    · subst hC; exact hc U
    · rfl
  intro C U
  rw [replaces_setCalls (s.setClient o c') B T f' rest C U, hthread, hthread]

theorem replaces_agents (h : Replaces s s' B T f' rest) (hcalls : (s.thread B T).calls = f :: rest)
    (hf : f'.roles l = f.roles l) {γ : Option (Agent × Role)} {C : ℕ}
    (ha : (s.client C).Agents l γ) : (s'.client C).Agents l γ := by
  intro U
  change (s'.thread C U).roles l = _
  rw [h C U, ← ha U]
  split_ifs with hC
  · obtain ⟨rfl,rfl⟩ := hC
    change _ = (s.thread B T).roles l
    simp only [Thread.roles, hcalls, stackRoles_cons, hf]
  · rfl

theorem replaces_marks (h : Replaces s s' B T f' rest) (hcalls : (s.thread B T).calls = f :: rest)
    (hf : f'.marks l = f.marks l) (C U : ℕ) : (s'.thread C U).marks l = (s.thread C U).marks l := by
  rw [h C U]
  split_ifs with hC
  · obtain ⟨rfl,rfl⟩ := hC
    simp only [Thread.marks, hcalls, List.flatMap_cons, hf]
  · rfl

theorem replaces_mark (h : Replaces s s' B T f' rest) (hrest : rest.flatMap (Call.marks l) = [])
    (C U : ℕ) :
    (s'.thread C U).marks l = if C = B ∧ U = T then f'.marks l else (s.thread C U).marks l := by
  rw [h C U]
  by_cases hC : C = B ∧ U = T
  · obtain ⟨rfl,rfl⟩ := hC
    simp [Thread.marks, hrest]
  · rw [if_neg hC, if_neg]
    intro hB
    exact hC ⟨hB.1.symm, hB.2.symm⟩

/-- Thread `T` of `B` goes from one role to the next. -/
theorem replaces_become (h : Replaces s s' B T f' rest) (hcalls : (s.thread B T).calls = f :: rest)
    {r q : Role} (hf : f.roles l = [r]) (hf' : f'.roles l = [q])
    (ha : ∀ C, (s.client C).Agents l (g C)) (C : ℕ) :
    (s'.client C).Agents l (Function.update g B (some (.thread T, q)) C) := by
  by_cases hC : C = B
  · subst hC
    obtain ⟨hgC,hrest⟩ := agents_top (ha C) hcalls hf
    rw [Function.update_self]
    apply (ha C).become (T := T)
    · intro U hU
      change s'.thread C U = s.thread C U
      rw [h C U]
      simp [hU]
    · exact Or.inr ⟨r, hgC⟩
    · change (s'.thread C T).roles l = _
      rw [h C T, if_pos ⟨rfl,rfl⟩]
      simp only [Thread.roles, stackRoles_cons, hf', List.append_assoc]
      change [q] ++ restRoles (s.client C) T rest l = [q]
      rw [hrest, List.append_nil]
  · rw [Function.update_of_ne hC]
    intro U
    change (s'.thread C U).roles l = _
    rw [h C U, if_neg (fun hB => hC hB.1.symm)]
    exact ha C U

/-- A message about another lock. -/
theorem other_advances (h : Replaces s s' B T f' rest) (hcalls : (s.thread B T).calls = f :: rest)
    (hroles : f'.roles l = f.roles l) (hmarks : f'.marks l = f.marks l) (ht : s.Tracks l g)
    (hi : s'.lockTable.info l = s.lockTable.info l)
    (hr : ∀ C, s'.retries.count (l, C) = s.retries.count (l, C))
    (hc : ∀ C γ, (s'.client C).party l γ = (s.client C).party l γ)
    (hx : s'.table[l]? = s.table[l]?) : Advances s e s' l g := by
  apply same_advances ht _ hi hr _ _ hx
  · intro C; exact replaces_agents h hcalls hroles (ht.agents C)
  · intro C; exact hc C (g C)
  · exact replaces_marks h hcalls hmarks

@[simp] theorem party_sys_setCalls (s : Sys) (B T C l : ℕ) (calls : List Call)
    (γ : Option (Agent × Role)) :
    ((s.setCalls B T calls).client C).party l γ = (s.client C).party l γ := by
  rw [client_setCalls]
  split_ifs with hB
  · subst hB; rfl
  · rfl

/-- A request that was not sent on waits for no revoke. -/
theorem rest_marks_nil (hg : Good (s.view l g)) (hcalls : (s.thread B T).calls = f :: rest)
    (hB : ∀ T, g B ≠ some (.thread T, .serving)) : rest.flatMap (Call.marks l) = [] := by
  have hnil : (s.thread B T).marks l = [] := by
    rcases hm : (s.thread B T).marks l with _ | ⟨⟨o,p⟩,ms⟩
    · rfl
    · have := (hg.marked B T o p (by simp [Sys.view, hm])).2
      exact absurd this (hB T)
  rw [Thread.marks, hcalls, List.flatMap_cons] at hnil
  exact (List.append_eq_nil_iff.mp hnil).2

/-- A request that was sent on waits for one revoke. -/
theorem revoking_marks {p : Phase} (hg : Good (s.view l g))
    (hcalls : (s.thread B T).calls = .acquire l (.revoking o p) :: rest) :
    (s.view l g).mark B T = [(o, p)] ∧ rest.flatMap (Call.marks l) = [] := by
  have hmarks : (s.view l g).mark B T = (o, p) :: rest.flatMap (Call.marks l) := by
    simp [Sys.view, Thread.marks, hcalls, Call.marks]
  have hone := (hg.marked B T o p (by simp [hmarks])).1
  refine ⟨hone, ?_⟩
  rw [hmarks] at hone
  exact (List.cons.inj hone).2

/-- The request of thread `T` of `A` is answered, or held up by a revoke. -/
theorem acquire_advances (pc : AcquirePc) {k : LockEvent} {i : LockInfo} {r : Role}
    (hrep : Replaces s s' A T (.acquire lid pc) rest)
    (hcalls : (s.thread A T).calls = .acquire lid .call :: rest) (ht : s.Tracks lid g)
    (hg : Good (s.view lid g)) (hi : s'.lockTable.info lid = i)
    (hlocked : i.locked = i.owner.isSome)
    (hr : s'.retries = s.retries) (hc : ∀ C γ, (s'.client C).party lid γ = (s.client C).party lid γ)
    (hx : s'.table = s.table) (hpc : pc.roles = [r]) (hk : Accounts s e lid k)
    (hstep : LockStep k (s.view lid g)
      { ((s.view lid g).setAgent A (some (.thread T, r))).setMark A T
        (Call.marks lid (.acquire lid pc)) with owner := i.owner, waiting := i.waiting }) :
    Advances s e s' lid g := by
  obtain ⟨hgA,-⟩ := agents_top (ht.agents A) hcalls (acquire_roles _ _)
  have hrest := rest_marks_nil hg hcalls (by simp [hgA])
  have hview : s'.view lid (Function.update g A (some (.thread T, r))) =
      { ((s.view lid g).setAgent A (some (.thread T, r))).setMark A T
        (Call.marks lid (.acquire lid pc)) with owner := i.owner, waiting := i.waiting } := by
    apply view_eq_of
    · rw [hi]
    · rw [hi]
    · intro C; rw [hr]; rfl
    · intro C
      rw [hc]
      by_cases hC : C = A
      · subst hC; simp [LockView.setAgent]; rfl
      · simp [LockView.setAgent, hC, Sys.view]
    · intro C U
      rw [replaces_mark hrep hrest]
      simp only [setMark_mark]
      rfl
    · rw [hx]; rfl
  refine ⟨Function.update g A (some (.thread T, r)), ⟨?_, by rw [hi]; exact hlocked⟩,
    Or.inr ⟨k, hk, hview ▸ hstep⟩⟩
  exact replaces_become hrep hcalls (acquire_roles _ _) ((acquire_roles _ _).trans hpc) ht.agents

theorem setMark_self {v : LockView} {ms : List (ℕ × Phase)} (h : v.mark B T = ms) :
    v.setMark B T ms = v := by
  unfold LockView.setMark
  rw [← h, Function.update_eq_self, Function.update_eq_self]

theorem marks_acquire_other (hl : lid ≠ l) (pc : AcquirePc) :
    Call.marks l (.acquire lid pc) = [] := by
  cases pc <;> simp [Call.marks, hl]

theorem serve_acquire_advances (hcalls : (s.thread A T).calls = .acquire lid .call :: rest)
    (ht : s.Tracks l g) (hg : Good (s.view l g)) (h : s.serve A T = some s') :
    Advances s (.serve A T) s' l g := by
  simp only [Sys.serve, hcalls, Option.some.injEq] at h
  by_cases hl : lid = l
  · subst hl
    obtain ⟨hgA,hroles⟩ := agents_top (ht.agents A) hcalls (acquire_roles _ _)
    have hrest := rest_marks_nil hg hcalls (by simp [hgA])
    have hmark : ∀ γ, ((s.view lid g).setAgent A γ).mark A T = [] := by
      intro γ
      simp [LockView.setAgent, Sys.view, Thread.marks, hcalls, hrest, Call.marks]
    have hagent : ((s.view lid g).party A).agent = some (.thread T, .asking) := hgA
    have hlocked := ht.locked
    unfold LockTable.acquire at h
    dsimp only at h
    rcases ho : (s.lockTable.info lid).owner with _ | o
    · -- the lock is free
      rw [ho] at hlocked
      simp only [hlocked, Option.isSome_none, Bool.false_eq_true, if_false] at h
      subst h
      refine acquire_advances (.reply .ok) (k := .serve)
        (i := ⟨true, some A, []⟩) (replaces_setCalls s A T _ rest) hcalls ht hg ?_
          rfl rfl ?_ rfl rfl
        trivial ?_
      · simp
      · intro C γ; exact party_sys_setCalls s A T C lid _ γ
      · rw [show Call.marks lid (.acquire lid (.reply .ok)) = [] from rfl, setMark_self (hmark _)]
        exact .grant hagent ho
    · rw [ho] at hlocked
      simp only [hlocked, Option.isSome_some, if_true, ho] at h
      by_cases hw : (s.lockTable.info lid).waiting = []
      · -- this request is the first to wait, so the owner gets a revoke
        simp only [hw, if_true] at h
        subst h
        refine acquire_advances (.revoking o .sent) (k := .serve)
          (i := ⟨true, some o, [A]⟩) (replaces_setCalls s A T _ rest) hcalls ht hg ?_ rfl rfl ?_ rfl
          rfl trivial ?_
        · simp
        · intro C γ; exact party_sys_setCalls s A T C lid _ γ
        · rw [show Call.marks lid (.acquire lid (.revoking o .sent)) = [(o, .sent)] from if_pos rfl]
          rw [← ho]
          exact .firstWait hagent ho hw
      · simp only [hw, if_false] at h
        subst h
        refine acquire_advances (.reply .retry) (k := .serve)
          (i := ⟨true, some o, (s.lockTable.info lid).waiting.insert A⟩)
          (replaces_setCalls s A T _ rest) hcalls ht hg ?_ rfl rfl ?_ rfl rfl trivial ?_
        · simp
        · intro C γ; exact party_sys_setCalls s A T C lid _ γ
        · rw [show Call.marks lid (.acquire lid (.reply .retry)) = [] from rfl,
            setMark_self (hmark _)]
          rw [← ho]
          exact .wait hagent ho hw
  · rw [← h]
    refine other_advances (f := .acquire lid .call) (replaces_setCalls s A T (.acquire lid _) rest)
      hcalls ?_ ?_ ht ?_ ?_ ?_ ?_
    · simp [hl]
    · rw [marks_acquire_other hl, marks_acquire_other hl]
    · unfold LockTable.acquire
      dsimp only
      split_ifs <;> simp [hl]
    · intro C; rfl
    · intro C γ; exact party_sys_setCalls s A T C l _ γ
    · rfl

theorem count_retries (retries : List (ℕ × ℕ)) (waiting : List ℕ) (lid l B : ℕ) :
    (retries ++ waiting.map (fun w => (lid, w))).count (l, B) =
      retries.count (l, B)+if lid = l then waiting.count B else 0 := by
  rw [List.count_append]
  congr 1
  split_ifs with hl
  · subst hl
    exact List.count_map_of_injective waiting _ (fun a b hab => (Prod.mk.inj hab).2) B
  · apply List.count_eq_zero.mpr
    simp [hl]

/-- A release by the recorded owner frees the lock and tells the waiters. -/
theorem serveRelease_owner {id : ℕ} (ho : (s.lockTable.info lid).owner = some id)
    (calls : List Call) :
    s.serveRelease lid id B T calls = { (s.setCalls B T calls) with
      lockTable := s.lockTable.insert lid {},
      retries := s.retries ++ (s.lockTable.info lid).waiting.map (fun w => (lid, w)) } := by
  simp [Sys.serveRelease, LockTable.release, ho]

theorem serveRelease_other {id : ℕ} (ho : (s.lockTable.info lid).owner ≠ some id)
    (calls : List Call) :
    s.serveRelease lid id B T calls = { s with lockServerUp := false } := by
  simp [Sys.serveRelease, LockTable.release, ho]

/-- A release of another lock. -/
theorem serveRelease_advances {id : ℕ} (hl : lid ≠ l) (ht : s.Tracks l g)
    (hcalls : (s.thread B T).calls = f :: rest) (hroles : f'.roles l = f.roles l)
    (hmarks : f'.marks l = f.marks l) :
    Advances s e (s.serveRelease lid id B T (f' :: rest)) l g := by
  by_cases ho : (s.lockTable.info lid).owner = some id
  · rw [serveRelease_owner ho]
    refine other_advances (replaces_setCalls s B T f' rest) hcalls hroles hmarks ht ?_ ?_ ?_ ?_
    · simp [hl]
    · intro C
      rw [count_retries, if_neg hl, Nat.add_zero]
    · intro C γ; exact party_sys_setCalls s B T C l _ γ
    · rfl
  · rw [serveRelease_other ho]
    exact stutter_advances ht rfl rfl rfl rfl

/-- A client whose release is on its way is the recorded owner. -/
theorem releasing_owner (ht : s.Tracks l g) (hg : Good (s.view l g))
    (hcalls : (s.thread A T).calls = .release l .call :: rest) :
    (s.lockTable.info l).owner = some A := by
  obtain ⟨hgA,-⟩ := agents_top (ht.agents A) hcalls (release_roles _ _)
  have hagent : ((s.view l g).party A).agent = some (.thread T, .releasing) := hgA
  have hfits := hg.fits A
  rw [Party.Fits, hagent] at hfits
  apply (hg.owner A).mpr
  rw [Party.Owns, hagent]
  exact ⟨hfits.1, trivial⟩

theorem revoking_owner (hg : Good (s.view l g))
    (hcalls : (s.thread B T).calls = .acquire l (.revoking o .releasing) :: rest) :
    (s.lockTable.info l).owner = some o := by
  obtain ⟨hmark,-⟩ := revoking_marks hg hcalls
  have hagent := (hg.releasing B T o).mp (by simp [hmark])
  have hfits := hg.fits o
  rw [Party.Fits, hagent] at hfits
  apply (hg.owner o).mpr
  rw [Party.Owns, hagent]
  exact ⟨hfits.2.1, trivial⟩

theorem serve_release_advances (hcalls : (s.thread A T).calls = .release lid .call :: rest)
    (ht : s.Tracks l g) (hg : Good (s.view l g)) (h : s.serve A T = some s') :
    Advances s (.serve A T) s' l g := by
  simp only [Sys.serve, hcalls, Option.some.injEq] at h
  subst h
  by_cases hl : lid = l
  · subst hl
    obtain ⟨hgA,hroles⟩ := agents_top (ht.agents A) hcalls (release_roles _ _)
    have hagent : ((s.view lid g).party A).agent = some (.thread T, .releasing) := hgA
    have ho := releasing_owner ht hg hcalls
    have hrest := rest_marks_nil hg hcalls (by simp [hgA, ReleasePc.role])
    have hrep := replaces_setCalls s A T (.release lid .reply) rest
    rw [serveRelease_owner ho]
    refine ⟨Function.update g A (some (.thread T, .released)), ⟨?_, by simp⟩,
      Or.inr ⟨.release, trivial, ?_⟩⟩
    · exact replaces_become hrep hcalls (release_roles _ _) (release_roles _ _) ht.agents
    · convert LockStep.release hagent ho using 1
      apply view_eq_of
      · simp [LockView.setAgent]
      · simp [LockView.setAgent]
      · intro C
        rw [count_retries, if_pos rfl]
        rfl
      · intro C
        change ((s.setCalls A T _).client C).party lid _ = _
        rw [party_sys_setCalls]
        by_cases hC : C = A
        · subst hC; simp [LockView.setAgent]; rfl
        · simp [LockView.setAgent, hC, Sys.view]
      · intro C U
        change ((s.setCalls A T _).thread C U).marks lid = _
        rw [replaces_mark hrep hrest]
        split_ifs with hC
        · obtain ⟨rfl,rfl⟩ := hC
          simp [LockView.setAgent, Sys.view, Thread.marks, hcalls, hrest]
        · rfl
      · rfl
  · apply serveRelease_advances (f := .release lid .call) hl ht hcalls <;> simp [hl]

theorem serve_advances (ht : s.Tracks l g) (hg : Good (s.view l g)) (h : s.serve A T = some s') :
    Advances s (.serve A T) s' l g := by
  have h' := h
  unfold Sys.serve at h'
  split at h'
  · rename_i hcalls
    exact serve_acquire_advances hcalls ht hg h
  · rename_i hcalls
    exact serve_release_advances hcalls ht hg h
  · cases h'

/-- What a delivered revoke does. -/
theorem revoke_cases (h : s.revoke B T = some s') :
    ∃ lid o rest, (s.thread B T).calls = .acquire lid (.revoking o .sent) :: rest ∧
      (((s.client o).disconnected = true ∧ s' = { s with lockServerUp := false }) ∨
      ((s.client o).disconnected = false ∧ ∃ st,
        ((((s.client o).lock lid).state = .acquiring ∨ ((s.client o).lock lid).state = .waiting ∨
            ((s.client o).lock lid).state = .locked) ∧ st = .releasing ∨
          (((s.client o).lock lid).state = .none ∨ ((s.client o).lock lid).state = .releasing ∨
            ((s.client o).lock lid).state = .freeRls) ∧ st = ((s.client o).lock lid).state) ∧
        s' = (s.setClient o ((s.client o).setLock lid st false)).setCalls B T
          (.acquire lid (.reply .retry) :: rest)) ∨
      ((s.client o).disconnected = false ∧ ((s.client o).lock lid).state = .free ∧
        (((s.client o).localExtent.flush s.table lid s.now = none ∧
            s' = { s with extentServerUp := false }) ∨
          ∃ c t, (s.client o).localExtent.flush s.table lid s.now = some (c, t) ∧
            s' = { (s.setClient o
              (((s.client o).setLock lid .freeRls false).setCache c)).setCalls B T
              (.acquire lid (.revoking o .releasing) :: rest) with table := t }))) := by
  unfold Sys.revoke at h
  split at h
  · rename_i lid o rest hcalls
    refine ⟨lid, o, rest, hcalls, ?_⟩
    dsimp only at h
    split at h
    · cases h
    split at h <;> rename_i hoff
    · exact Or.inl ⟨hoff, (Option.some.inj h).symm⟩
    · replace hoff : (s.client o).disconnected = false := by simpa using hoff
      right
      split at h <;> rename_i hs
      · exact Or.inl ⟨hoff, _, Or.inl ⟨Or.inl hs, rfl⟩, (Option.some.inj h).symm⟩
      · exact Or.inl ⟨hoff, _, Or.inl ⟨Or.inr (Or.inl hs), rfl⟩, (Option.some.inj h).symm⟩
      · exact Or.inl ⟨hoff, _, Or.inl ⟨Or.inr (Or.inr hs), rfl⟩, (Option.some.inj h).symm⟩
      · right
        refine ⟨hoff, hs, ?_⟩
        split_ifs at h
        split at h
        · rename_i hf
          exact Or.inl ⟨hf, (Option.some.inj h).symm⟩
        · rename_i p hf
          exact Or.inr ⟨p.1, p.2, hf, (Option.some.inj h).symm⟩
      · refine Or.inl ⟨hoff, _, Or.inr ⟨?_, rfl⟩, (Option.some.inj h).symm⟩
        cases hst : ((s.client o).lock lid).state <;> simp_all
  · cases h

theorem party_setLock_other (c : Client) (hl : lid ≠ l) (st : LState) (b : Bool)
    (γ : Option (Agent × Role)) : (c.setLock lid st b).party l γ = c.party l γ := by
  simp [Client.party, hl]

theorem party_setClient_same {c' : Client} {γ : Option (Agent × Role)}
    (hc : c'.party l γ = (s.client o).party l γ) (C : ℕ) :
    ((s.setClient o c').client C).party l γ = (s.client C).party l γ := by
  rw [client_setClient]
  split_ifs with hC
  · subst hC; exact hc
  · rfl

/-- The client that owns the lock has not given it up. -/
theorem owns_state {p : Party} (hf : p.Fits) (ho : p.Owns) : p.state ≠ .none := by
  intro hs
  have hn := fits_idle hf (Or.inl hs)
  rw [Party.Owns, hn, hs] at ho
  simp at ho

theorem revoke_advances (ht : s.Tracks l g) (hg : Good (s.view l g))
    (h : s.revoke B T = some s') : Advances s (.revoke B T) s' l g := by
  obtain ⟨lid,o,rest,hcalls,⟨-,rfl⟩ | ⟨hoff,st,hst,rfl⟩ | ⟨hoff,hs,⟨-,rfl⟩ | ⟨c,t,hflush,rfl⟩⟩⟩ :=
    revoke_cases h
  · exact stutter_advances ht rfl rfl rfl rfl
  · have hrep := replaces_answer (s := s) (o := o) ((s.client o).setLock lid st false)
      (fun _ => rfl) B T (.acquire lid (.reply .retry)) rest
    by_cases hl : lid = l
    · subst hl
      obtain ⟨hmark,hrest⟩ := revoking_marks hg hcalls
      have hmem : (o, Phase.sent) ∈ (s.view lid g).mark B T := by simp [hmark]
      obtain ⟨ho,hu,-⟩ := hg.sent B T o hmem
      have hoB := mark_ne hg hmem
      have hnone := owns_state (hg.fits o) ((hg.owner o).mp ho)
      obtain ⟨hs,rfl⟩ | ⟨hs | hs | hs,-⟩ := hst
      · refine ⟨Function.update g B (some (.thread T, .refused)), ⟨?_, ht.locked⟩,
          Or.inr ⟨.revoke o, ⟨B, T, rest, rfl, hcalls⟩, ?_⟩⟩
        · exact replaces_become hrep hcalls (acquire_roles _ _) (acquire_roles _ _) ht.agents
        · convert LockStep.revokeBusy hmark hs using 1
          apply view_eq_of
          · rfl
          · rfl
          · intro C; rfl
          · intro C
            rw [party_sys_setCalls, client_setClient]
            by_cases hC : C = B
            · subst hC
              simp [LockView.setAgent, hoB, Ne.symm hoB, Sys.view, Client.party]
            · by_cases hCo : o = C
              · subst hCo
                simp [LockView.setAgent, hC, Sys.view, Client.party]
              · simp [LockView.setAgent, hC, hCo, Ne.symm hCo, Sys.view]
          · intro C U
            rw [replaces_mark hrep hrest, setMark_mark]
            rfl
          · rfl
      · exact absurd hs hnone
      · exact absurd (Or.inl hs) hu
      · exact absurd (Or.inr hs) hu
    · refine other_advances (f := .acquire lid (.revoking o .sent)) hrep hcalls ?_ ?_ ht rfl
        (fun _ => rfl) ?_ rfl
      · simp [hl]
      · rw [marks_acquire_other hl, marks_acquire_other hl]
      · intro C γ
        rw [party_sys_setCalls]
        exact party_setClient_same (party_setLock_other _ hl _ _ γ) C
  · exact stutter_advances ht rfl rfl rfl rfl
  · obtain ⟨hn,hf,hother⟩ := flush_flushes hflush
    have hrep := replaces_answer (s := s) (o := o)
      (((s.client o).setLock lid .freeRls false).setCache c)
      (fun _ => rfl) B T (.acquire lid (.revoking o .releasing)) rest
    by_cases hl : lid = l
    · subst hl
      obtain ⟨hmark,hrest⟩ := revoking_marks hg hcalls
      have hmem : (o, Phase.sent) ∈ (s.view lid g).mark B T := by simp [hmark]
      obtain ⟨ho,-,-⟩ := hg.sent B T o hmem
      have hgo : g o = none := fits_idle (hg.fits o) (Or.inr hs)
      have hparty : (s.view lid g).party o =
          ⟨false, .free, false, (s.client o).localExtent[lid]?, none⟩ := by
        have howns := (hg.owner o).mp ho
        have hagent : ((s.view lid g).party o).agent = none := hgo
        rw [Party.Owns, hagent] at howns
        have hstale : ((s.client o).lock lid).stale = false := howns.2.2
        simp only [Sys.view, Client.party, hoff, hs, hgo, hstale]
      refine ⟨Function.update g o (some (.handler B T, .releasing)), ⟨?_, ht.locked⟩,
        Or.inr ⟨.revoke o, ⟨B, T, rest, rfl, hcalls⟩, ?_⟩⟩
      · intro C
        have hC := replaces_agents hrep hcalls (l := lid) (by simp [AcquirePc.roles]) (ht.agents C)
        by_cases hCo : C = o
        · subst hCo
          rw [Function.update_self]
          rw [hgo] at hC
          exact hC
        · rw [Function.update_of_ne hCo]
          exact hC
      · convert LockStep.revokeFree hmark hparty hf using 1
        apply view_eq_of
        · rfl
        · rfl
        · intro C; rfl
        · intro C
          change (((s.setClient o _).setCalls B T _).client C).party lid _ = _
          rw [party_sys_setCalls, client_setClient]
          by_cases hC : o = C
          · subst hC
            simp [Client.party, hoff, hn]
          · simp [hC, Ne.symm hC, Sys.view]
        · intro C U
          change (((s.setClient o _).setCalls B T _).thread C U).marks lid = _
          rw [replaces_mark hrep hrest, setMark_mark]
          simp only [Call.marks, if_true]
          rfl
        · rfl
    · refine other_advances (f := .acquire lid (.revoking o .sent)) hrep hcalls ?_ ?_ ht rfl
        (fun _ => rfl) ?_ (hother l hl).2
      · simp [hl]
      · rw [marks_acquire_other hl, marks_acquire_other hl]
      · intro C γ
        change (((s.setClient o _).setCalls B T _).client C).party l γ = _
        rw [party_sys_setCalls]
        refine party_setClient_same ?_ C
        simp [Client.party, hl, (hother l hl).1]

theorem serveRevoked_advances (ht : s.Tracks l g) (hg : Good (s.view l g))
    (h : s.serveRevoked B T = some s') : Advances s (.serveRevoked B T) s' l g := by
  unfold Sys.serveRevoked at h
  split at h
  · rename_i lid o rest hcalls
    cases h
    by_cases hl : lid = l
    · subst hl
      obtain ⟨hmark,hrest⟩ := revoking_marks hg hcalls
      have hagent := (hg.releasing B T o).mp (by simp [hmark])
      have hgo : g o = some (.handler B T, .releasing) := hagent
      have ho := revoking_owner hg hcalls
      have hrep := replaces_setCalls s B T (.acquire lid (.revoking o .released)) rest
      rw [serveRelease_owner ho]
      refine ⟨Function.update g o (some (.handler B T, .released)), ⟨?_, by simp⟩,
        Or.inr ⟨.release, trivial, ?_⟩⟩
      · intro C
        have hC := replaces_agents hrep hcalls (l := lid) (by simp [AcquirePc.roles]) (ht.agents C)
        by_cases hCo : C = o
        · subst hCo
          rw [Function.update_self]
          rw [hgo] at hC
          exact hC
        · rw [Function.update_of_ne hCo]
          exact hC
      · convert LockStep.handlerRelease hagent ho using 1
        apply view_eq_of
        · simp [LockView.setAgent]
        · simp [LockView.setAgent]
        · intro C
          rw [count_retries, if_pos rfl]
          rfl
        · intro C
          change ((s.setCalls B T _).client C).party lid _ = _
          rw [party_sys_setCalls]
          by_cases hC : C = o
          · subst hC; simp [LockView.setAgent]; rfl
          · simp [LockView.setAgent, hC, Sys.view]
        · intro C U
          change ((s.setCalls B T _).thread C U).marks lid = _
          rw [replaces_mark hrep hrest, setMark_mark]
          simp only [Call.marks, if_true]
          rfl
        · rfl
    · apply serveRelease_advances (f := .acquire lid (.revoking o .releasing)) hl ht hcalls
      · simp [hl]
      · rw [marks_acquire_other hl, marks_acquire_other hl]
  · cases h

theorem revoked_advances (ht : s.Tracks l g) (hg : Good (s.view l g))
    (h : s.revoked B T = some s') : Advances s (.revoked B T) s' l g := by
  unfold Sys.revoked at h
  split at h
  · rename_i lid o rest hcalls
    dsimp only at h
    split_ifs at h
    cases h
    have hrep := replaces_answer (s := s) (o := o)
      ((s.client o).setLock lid .none ((s.client o).lock lid).stale)
      (fun _ => rfl) B T (.acquire lid (.reply .retry)) rest
    by_cases hl : lid = l
    · subst hl
      obtain ⟨hmark,hrest⟩ := revoking_marks hg hcalls
      have hmem : (o, Phase.released) ∈ (s.view lid g).mark B T := by simp [hmark]
      have hagent := (hg.released B T o).mp hmem
      have hgo : g o = some (.handler B T, .released) := hagent
      have hoB := mark_ne hg hmem
      have hB := (hg.marked B T o .released hmem).2
      refine ⟨Function.update (Function.update g o none) B (some (.thread T, .refused)),
        ⟨?_, ht.locked⟩, Or.inr ⟨.revoked, trivial, ?_⟩⟩
      · refine replaces_become hrep hcalls (acquire_roles _ _) (acquire_roles _ _) ?_
        intro C
        by_cases hCo : C = o
        · subst hCo
          rw [Function.update_self]
          have hC := ht.agents C
          rw [hgo] at hC
          exact hC
        · rw [Function.update_of_ne hCo]
          exact ht.agents C
      · convert LockStep.revoked hagent hB using 1
        apply view_eq_of
        · rfl
        · rfl
        · intro C; rfl
        · intro C
          rw [party_sys_setCalls, client_setClient]
          by_cases hC : C = B
          · subst hC
            simp [LockView.setAgent, hoB, Ne.symm hoB, Sys.view, Client.party]
          · by_cases hCo : o = C
            · subst hCo
              simp [LockView.setAgent, hC, Sys.view, Client.party]
            · simp [LockView.setAgent, hC, hCo, Ne.symm hCo, Sys.view]
        · intro C U
          rw [replaces_mark hrep hrest, setMark_mark]
          rfl
        · rfl
    · refine other_advances (f := .acquire lid (.revoking o .released)) hrep hcalls ?_ ?_ ht rfl
        (fun _ => rfl) ?_ rfl
      · simp [hl]
      · rw [marks_acquire_other hl, marks_acquire_other hl]
      · intro C γ
        rw [party_sys_setCalls]
        exact party_setClient_same (party_setLock_other _ hl _ _ γ) C
  · cases h

/-- What a delivered retry does. -/
theorem retry_cases (h : s.retry lid B = some s') :
    (lid, B) ∈ s.retries ∧
      ((((s.client B).disconnected = true ∨ (lid, B) ∈ s.dangling) ∧
        s' = { s with lockServerUp := false }) ∨
      (((s.client B).disconnected = false ∧ (lid, B) ∉ s.dangling) ∧ ∃ st,
        (((s.client B).lock lid).state = .acquiring ∧ st = .waiting ∨
          ((s.client B).lock lid).state = .waiting ∧ st = .acquiring ∨
          ((s.client B).lock lid).state ≠ .acquiring ∧ ((s.client B).lock lid).state ≠ .waiting ∧
            st = ((s.client B).lock lid).state) ∧
        s' = { (s.setClient B ((s.client B).setLock lid st ((s.client B).lock lid).stale)) with
          retries := s.retries.erase (lid, B) })) := by
  unfold Sys.retry at h
  dsimp only at h
  split at h
  · cases h
  rename_i hr
  push Not at hr
  split at h <;> rename_i hoff
  · exact ⟨hr.1, Or.inl ⟨hoff, (Option.some.inj h).symm⟩⟩
  · push Not at hoff
    refine ⟨hr.1, Or.inr ⟨by simpa using hoff, _, ?_, (Option.some.inj h).symm⟩⟩
    split
    · rename_i hs; exact Or.inl ⟨hs, rfl⟩
    · rename_i hs; exact Or.inr (Or.inl ⟨hs, rfl⟩)
    · rename_i h1 h2; exact Or.inr (Or.inr ⟨h1, h2, rfl⟩)

theorem due_state {p : Party} (hd : 0 < p.due) : p.state = .acquiring ∨ p.state = .waiting := by
  unfold Party.due at hd
  split at hd <;> grind

theorem retry_advances (ht : s.Tracks l g) (hg : Good (s.view l g))
    (h : s.retry lid B = some s') : Advances s (.retry lid B) s' l g := by
  obtain ⟨hr,⟨-,rfl⟩ | ⟨⟨hoff,-⟩,st,hst,rfl⟩⟩ := retry_cases h
  · exact stutter_advances ht rfl rfl rfl rfl
  · have hthread : ∀ C U, (s.setClient B ((s.client B).setLock lid st
        ((s.client B).lock lid).stale)).thread C U = s.thread C U := by
      intro C U
      rw [Sys.thread, client_setClient]
      split_ifs with hC
      · subst hC; rfl
      · rfl
    have hagents : ∀ C, ((s.setClient B ((s.client B).setLock lid st
        ((s.client B).lock lid).stale)).client C).Agents l (g C) := by
      intro C U
      change ((Sys.setClient s B _).thread C U).roles l = _
      rw [hthread]
      exact ht.agents C U
    by_cases hl : lid = l
    · subst hl
      have hpending : 0 < (s.view lid g).pending B := List.count_pos_iff.mpr hr
      have hstate := due_state (p := (s.view lid g).party B) (by rw [← hg.due B]; omega)
      refine ⟨g, ⟨hagents, ht.locked⟩, Or.inr ⟨.retry, trivial, ?_⟩⟩
      convert LockStep.retry (s := st) hpending ?_ using 1
      · apply view_eq_of
        · rfl
        · rfl
        · intro C
          rw [List.count_erase]
          by_cases hC : C = B
          · subst hC; simp [Sys.view]
          · simp [Sys.view, hC, Ne.symm hC]
        · intro C
          change ((Sys.setClient s B _).client C).party lid (g C) = _
          rw [client_setClient]
          by_cases hC : B = C
          · subst hC; simp [Sys.view, Client.party]
          · simp [hC, Ne.symm hC, Sys.view]
        · intro C U
          change ((Sys.setClient s B _).thread C U).marks lid = _
          rw [hthread]
          rfl
        · rfl
      · obtain hs | hs | ⟨h1,h2,-⟩ := hst
        · exact Or.inl hs
        · exact Or.inr hs
        · exact absurd hstate (by rintro (h | h); exacts [h1 h, h2 h])
    · refine same_advances ht ?_ rfl ?_ ?_ ?_ rfl
      · exact hagents
      · intro C
        rw [List.count_erase_of_ne]
        simp [Ne.symm hl]
      · intro C
        exact party_setClient_same (party_setLock_other _ hl _ _ (g C)) C
      · intro C U
        change ((Sys.setClient s B _).thread C U).marks l = _
        rw [hthread]

/-- A sum over the entries of a map to which only one key contributes. -/
theorem sum_key {α : Type*} (φ : α → ℕ) (l : ℕ) {L : List (ℕ × α)} {i : Option α}
    (hd : L.Pairwise (fun p q => p.1 ≠ q.1)) (hi : ∀ a, (l, a) ∈ L ↔ i = some a) :
    (L.map (fun p => if p.1 = l then φ p.2 else 0)).sum = (i.map φ).getD 0 := by
  induction L generalizing i with
  | nil =>
    cases i with
    | none => rfl
    | some a => exact absurd ((hi a).mpr rfl) (by simp)
  | cons p L ih =>
    obtain ⟨hp,hd⟩ := List.pairwise_cons.mp hd
    rw [List.map_cons, List.sum_cons]
    split_ifs with hl
    · -- no other entry has this key
      have h0 : ∀ a, (l, a) ∈ L ↔ (none : Option α) = some a := by
        intro a
        refine iff_of_false (fun hm => hp _ hm hl) (by simp)
      have hpi : i = some p.2 := (hi p.2).mp (by subst hl; exact List.mem_cons_self)
      rw [ih hd h0, hpi]
      simp
    · rw [ih hd, Nat.zero_add]
      intro a
      rw [← hi a, List.mem_cons]
      constructor
      · exact Or.inr
      · intro hm
        refine hm.resolve_left (fun h => hl ?_)
        rw [← h]

/-- `disconnect_server` sends a retry to every waiter of a lock it frees. -/
theorem count_disconnectServer (t : LockTable) (A l B : ℕ) :
    ((t.disconnectServer A).2.flatMap (fun r => r.2.map (fun w => (r.1, w)))).count (l, B) =
      if (t.info l).owner = some A then (t.info l).waiting.count B else 0 := by
  have hone : ∀ p : ℕ × LockInfo, ((if p.2.owner = some A ∧ p.2.waiting ≠ [] then
      some (p.1, p.2.waiting) else none).toList.flatMap
        (fun r => r.2.map (fun w => (r.1, w)))).count
        (l, B) = if p.1 = l then (if p.2.owner = some A then p.2.waiting.count B
          else 0) else 0 := by
    rintro ⟨lid,i⟩
    have hc := count_retries [] i.waiting lid l B
    simp only [List.nil_append, List.count_nil, Nat.zero_add] at hc
    by_cases ho : i.owner = some A <;> by_cases hw : i.waiting = [] <;> simp_all
  have hd : t.toList.Pairwise (fun p q => p.1 ≠ q.1) := by
    refine ExtTreeMap.distinct_keys_toList.imp ?_
    intro p q h heq
    exact h (LawfulEqCmp.compare_eq_iff_eq.mpr heq)
  have hsum := sum_key (fun i : LockInfo => if i.owner = some A then i.waiting.count B else 0) l hd
    (i := t[l]?) (fun a => ExtTreeMap.mem_toList_iff_getElem?_eq_some)
  have hflat : (t.disconnectServer A).2.flatMap (fun r => r.2.map (fun w => (r.1, w))) =
      t.toList.flatMap (fun p => (if p.2.owner = some A ∧ p.2.waiting ≠ [] then
        some (p.1, p.2.waiting) else none).toList.flatMap
          (fun r => r.2.map (fun w => (r.1, w)))) := by
    simp only [LockTable.disconnectServer, List.filterMap_eq_flatMap_toList, List.flatMap_assoc]
  rw [hflat, List.count_flatMap]
  have hfun : (List.count (l, B) ∘ fun p : ℕ × LockInfo =>
      (if p.2.owner = some A ∧ p.2.waiting ≠ [] then some (p.1, p.2.waiting)
        else none).toList.flatMap
        (fun r => r.2.map (fun w => (r.1, w)))) =
      fun p => if p.1 = l then (if p.2.owner = some A then p.2.waiting.count B else 0) else 0 :=
    funext hone
  rw [hfun, hsum, LockTable.info]
  rcases Option.eq_none_or_eq_some t[l]? with h | ⟨i,h⟩ <;> simp [h]

theorem lock_goOffline (c : Client) (l : ℕ) :
    c.goOffline.lock l = ⟨(c.lock l).state.offline, (c.lock l).stale⟩ :=
  entry_map c.lockStatus (fun s => ⟨s.state.offline, s.stale⟩) rfl l

theorem disconnect_advances (ht : s.Tracks l g) (h : s.disconnect A = some s') :
    Advances s (.disconnect A) s' l g := by
  unfold Sys.disconnect at h
  dsimp only at h
  split_ifs at h
  cases h
  have hthread : ∀ C U, (s.setClient A (s.client A).goOffline).thread C U = s.thread C U := by
    intro C U
    rw [Sys.thread, client_setClient]
    split_ifs with hC
    · subst hC; rfl
    · rfl
  have hparty : ∀ C, ((s.setClient A (s.client A).goOffline).client C).party l (g C) =
      if C = A then { (s.view l g).party A with
        offline := true, state := ((s.view l g).party A).state.offline }
      else (s.view l g).party C := by
    intro C
    rw [client_setClient]
    by_cases hC : A = C
    · subst hC
      simp only [if_true, Client.party, lock_goOffline]
      rfl
    · simp [hC, Ne.symm hC, Sys.view]
  have hinfo := info_disconnectServer s.lockTable A l
  refine ⟨g, ⟨?_, ?_⟩, Or.inr ⟨.disconnect A, rfl, ?_⟩⟩
  · intro C U
    change ((s.setClient A _).thread C U).roles l = _
    rw [hthread]
    exact ht.agents C U
  · rw [hinfo]
    split_ifs
    · rfl
    · exact ht.locked
  · by_cases ho : (s.lockTable.info l).owner = some A
    · convert LockStep.disconnect (v := s.view l g) ho using 1
      apply view_eq_of
      · rw [hinfo, if_pos ho]; rfl
      · rw [hinfo, if_pos ho]; rfl
      · intro C
        rw [List.count_append, count_disconnectServer, if_pos ho]
        rfl
      · intro C
        rw [setParty_party]
        exact hparty C
      · intro C U
        change ((s.setClient A _).thread C U).marks l = _
        rw [hthread]
        rfl
      · rfl
    · convert LockStep.disconnectOther (v := s.view l g) ho using 1
      apply view_eq_of
      · rw [hinfo, if_neg ho]; rfl
      · rw [hinfo, if_neg ho]; rfl
      · intro C
        rw [List.count_append, count_disconnectServer, if_neg ho]
        rfl
      · intro C
        rw [setParty_party]
        exact hparty C
      · intro C U
        change ((s.setClient A _).thread C U).marks l = _
        rw [hthread]
        rfl
      · rfl

/-- Every lock of the system is in a state that the protocol can reach. -/
structure Sys.Sound (s : Sys) : Prop where
  settled : ∀ A, (s.client A).Settled
  good : ∀ l, ∃ g, s.Tracks l g ∧ Good (s.view l g)

theorem sound_fit (hs : s.Sound) (A : ℕ) : (s.client A).Fit := by
  intro l
  obtain ⟨g,ht,hg⟩ := hs.good l
  exact ⟨g A, ht.agents A, hg.fits A⟩

/-- Every step of the system follows the protocol of every lock. -/
theorem step_advances (hs : s.Sound) (ht : s.Tracks l g) (hg : Good (s.view l g))
    (h : s.step e = some s') : Advances s e s' l g := by
  have hup : ∀ o : Option Sys, (if s.lockServerUp = true then o else none) = some s' →
      o = some s' := by
    intro o ho
    split_ifs at ho
    exact ho
  cases e with
  | client A T m => exact client_advances (sound_fit hs A) (hs.settled A) ht hg h
  | serve A T => exact serve_advances ht hg (hup _ h)
  | revoke B T => exact revoke_advances ht hg (hup _ h)
  | serveRevoked B T => exact serveRevoked_advances ht hg (hup _ h)
  | revoked B T => exact revoked_advances ht hg (hup _ h)
  | retry lid B => exact retry_advances ht hg (hup _ h)
  | disconnect A => exact disconnect_advances ht (hup _ h)
  | clock now =>
    cases h
    exact stutter_advances ht rfl rfl rfl rfl

end Advances

end DisconnectedYfs.YFS
