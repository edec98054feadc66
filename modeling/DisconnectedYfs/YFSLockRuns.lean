import DisconnectedYfs.YFSSystemSimulation

/-! Runs in which clients disconnect only while nothing of theirs is under way at the lock server.
Along such a run every lock stays in a state that its protocol can reach. -/
namespace DisconnectedYfs.YFS
open Std

/-- The thread has no request under way, at most it sleeps in the wait loop of `acquire_wo` or is
loading an extent. -/
def Thread.quiet (th : Thread) : Bool :=
  match th.calls with
  | [] | [.acquire _ .waiting] | [.load _ _ _ _] => true
  | _ => false

/-- Some thread of the client has such a call on its stack. -/
def Client.anyCall (c : Client) (p : Call → Bool) : Bool :=
  c.threads.toList.any (fun q => q.2.calls.any p)

def Sys.anyCall (s : Sys) (p : Call → Bool) : Bool := s.clients.toList.any (fun q => q.2.anyCall p)

/-- The server waits for the answer of client `A` to a revoke. -/
def Call.revokes (A : ℕ) : Call → Bool
  | .acquire _ (.revoking o _) => o = A
  | _ => false

/-- Client `A` has no request under way, no lock that `disconnect(false)` still has to acquire
again, and no revoke on its way to it or in its handler. -/
def Sys.quiet (s : Sys) (A : ℕ) : Bool :=
  (s.client A).threads.toList.all (fun p => p.2.quiet) &&
  (s.client A).lockStatus.toList.all (fun p => p.2 ≠ ⟨.free, true⟩) &&
  !s.anyCall (Call.revokes A)

section Quiet
variable {s s' : Sys} {A l : ℕ} {g : ℕ → Option (Agent × Role)}

/-- A test of all entries of a map, at one key. -/
theorem getD_of_all {α : Type*} {m : ExtTreeMap ℕ α} {p : α → Bool} {d : α}
    (h : m.toList.all (fun q => p q.2) = true) (hd : p d = true) (k : ℕ) :
    p (m[k]?.getD d) = true := by
  rcases hk : m[k]? with _ | a
  · exact hd
  · exact List.all_eq_true.mp h (k, a) (ExtTreeMap.mem_toList_iff_getElem?_eq_some.mpr hk)

/-- A call on the stack of a thread is found among all calls. -/
theorem client_anyCall {c : Client} {T : ℕ} {f : Call} {p : Call → Bool}
    (hf : f ∈ (c.thread T).calls) (hp : p f = true) : c.anyCall p = true := by
  unfold Client.thread at hf
  rcases hT : c.threads[T]? with _ | th
  · rw [hT] at hf
    cases hf
  · rw [hT] at hf
    exact List.any_eq_true.mpr ⟨(T, th), ExtTreeMap.mem_toList_iff_getElem?_eq_some.mpr hT,
      List.any_eq_true.mpr ⟨f, hf, hp⟩⟩

theorem sys_anyCall {B T : ℕ} {f : Call} {p : Call → Bool} (hf : f ∈ (s.thread B T).calls)
    (hp : p f = true) : s.anyCall p = true := by
  unfold Sys.thread Sys.client at hf
  rcases hB : s.clients[B]? with _ | c
  · rw [hB] at hf
    cases hf
  · rw [hB] at hf
    exact List.any_eq_true.mpr ⟨(B, c), ExtTreeMap.mem_toList_iff_getElem?_eq_some.mpr hB,
      client_anyCall hf hp⟩

theorem quiet_cases (h : s.quiet A = true) :
    (∀ T, (s.thread A T).quiet = true) ∧ (∀ l, (s.client A).lock l ≠ ⟨.free, true⟩) ∧
      ∀ B T, ∀ f ∈ (s.thread B T).calls, f.revokes A = false := by
  simp only [Sys.quiet, Bool.and_eq_true] at h
  obtain ⟨⟨h1,h2⟩,h3⟩ := h
  refine ⟨?_, ?_, ?_⟩
  · intro T
    exact getD_of_all (p := Thread.quiet) h1 rfl T
  · intro l
    have := getD_of_all (p := fun x : LockState => decide (x ≠ ⟨.free, true⟩)) (d := {}) h2 rfl l
    exact of_decide_eq_true this
  · intro B T f hf
    by_contra hr
    rw [sys_anyCall hf (Bool.not_eq_false _ ▸ hr)] at h3
    cases h3

theorem mem_marks {th : Thread} {p : Phase} (h : (A, p) ∈ th.marks l) :
    ∃ f ∈ th.calls, f.revokes A = true := by
  obtain ⟨f,hf,hm⟩ := List.mem_flatMap.mp h
  refine ⟨f, hf, ?_⟩
  unfold Call.marks at hm
  split at hm
  · split_ifs at hm
    · simp only [List.mem_singleton, Prod.mk.injEq] at hm
      simp [Call.revokes, hm.1]
    · cases hm
  · cases hm

theorem mem_holdRoles {held : List (ℕ × Bool)} {r : Role} (h : r ∈ holdRoles held l) :
    ∃ read, r = .holding read := by
  obtain ⟨p,-,rfl⟩ := List.mem_map.mp h
  exact ⟨p.2, rfl⟩

theorem acquire_role {pc : AcquirePc} {r : Role} (h : r ∈ pc.roles) :
    r = .asking ∨ r = .serving ∨ r = .granted ∨ r = .refused ∨ r = .sleeping := by
  cases pc with
  | reply status => cases status <;> simp_all [AcquirePc.roles]
  | _ => simp_all [AcquirePc.roles]

theorem release_role (pc : ReleasePc) :
    pc.role = .leaving ∨ pc.role = .releasing ∨ pc.role = .released := by
  cases pc <;> simp [ReleasePc.role]

/-- What a call does with a lock. -/
inductive Call.Plays (l : ℕ) : Call → Role → Prop
  | acquire {pc : AcquirePc} {r : Role} (hr : r ∈ pc.roles) : Plays l (.acquire l pc) r
  | release (pc : ReleasePc) : Plays l (.release l pc) pc.role
  | resolve {stage : Stage} {r : Role} (hr : r = .resolving ∨ r = .dropped) :
    Plays l (.resolve l stage) r
  | hold (n : ℕ) (stage : Stage) (read : Bool) : Plays l (.resolve n stage) (.holding read)
  | load (read : Bool) (buf : Str) (op : Access) : Plays l (.load l read buf op) (.loading read buf)

theorem call_plays {f : Call} {r : Role} (h : r ∈ f.roles l) : f.Plays l r := by
  cases f with
  | acquire lid pc =>
    simp only [roles_acquire] at h
    split_ifs at h with hl
    · subst hl
      exact .acquire h
    · cases h
  | release lid pc =>
    simp only [roles_release] at h
    split_ifs at h with hl
    · subst hl
      obtain rfl := List.mem_singleton.mp h
      exact .release pc
    · cases h
  | resolve lid stage =>
    simp only [roles_resolve, List.mem_append] at h
    obtain h | h := h
    · split_ifs at h with hl
      · subst hl
        obtain rfl := List.mem_singleton.mp h
        exact .resolve (stage_role stage)
      · cases h
    · obtain ⟨read,rfl⟩ := mem_holdRoles h
      exact .hold lid stage read
  | load lid read buf op =>
    simp only [roles_load] at h
    split_ifs at h with hl
    · subst hl
      obtain rfl := List.mem_singleton.mp h
      exact .load read buf op
    · cases h
  | reconnect after => cases h

theorem quiet_roles {th : Thread} {r : Role} (h : th.quiet = true) (hr : r ∈ th.roles l) :
    (∃ read, r = .holding read) ∨ ∃ read buf, r = .loading read buf := by
  unfold Thread.quiet at h
  split at h
  · rename_i hcalls
    rw [Thread.roles, hcalls] at hr
    exact Or.inl (mem_holdRoles hr)
  · rename_i hcalls
    rw [Thread.roles, hcalls] at hr
    exact Or.inl (mem_holdRoles (by simpa [AcquirePc.roles] using hr))
  · rename_i hcalls
    rw [Thread.roles, hcalls] at hr
    simp only [stackRoles_cons, roles_load, stackRoles_nil, List.append_nil] at hr
    split_ifs at hr with hl
    · obtain h1 | h1 := List.mem_append.mp hr
      · exact Or.inr ⟨_, _, List.mem_singleton.mp h1⟩
      · exact Or.inl (mem_holdRoles h1)
    · exact Or.inl (mem_holdRoles hr)
  · cases h

theorem quiet_view (h : s.quiet A = true) (ht : s.Tracks l g) (hg : Good (s.view l g)) :
    (s.view l g).Quiet A := by
  obtain ⟨h1,h2,h3⟩ := quiet_cases h
  have hmark : ∀ B T p, (A, p) ∉ (s.view l g).mark B T := by
    intro B T p hp
    obtain ⟨f,hf,hr⟩ := mem_marks hp
    rw [h3 B T f hf] at hr
    cases hr
  refine ⟨?_, ?_, hmark⟩
  · rcases hgA : g A with _ | ⟨T | ⟨B,T⟩,r⟩
    · exact Or.inl hgA
    · refine Or.inr ⟨T, r, hgA, quiet_roles (h1 T) (l := l) ?_⟩
      have := ht.agents A T
      rw [hgA] at this
      change (s.thread A T).roles l = _ at this
      rw [this]
      simp [slot]
    · -- a revoke handler at work leaves its mark
      have hagent : ((s.view l g).party A).agent = some (.handler B T, r) := hgA
      have hf := hg.fits A
      rw [Party.Fits, hagent] at hf
      obtain rfl | rfl := hf.1
      · exact absurd ((hg.releasing B T A).mpr hagent) (hmark B T _)
      · exact absurd ((hg.released B T A).mpr hagent) (hmark B T _)
  · rintro ⟨hs,hst⟩
    apply h2 l
    have e1 : ((s.client A).lock l).state = .free := hs
    have e2 : ((s.client A).lock l).stale = true := hst
    rw [← e1, ← e2]

end Quiet

section Rejoins
variable {s s' : Sys} {e : Event} {A B T o : ℕ} {f f' : Call} {rest : List Call}

/-- Whoever is in the loop of `disconnect(false)` after a step was there before it, and has not
changed between online and offline. -/
def Rejoins (s s' : Sys) (A : ℕ) : Prop :=
  ∀ T, (s'.thread A T).calls.any Call.reconnects = true →
    (s.thread A T).calls.any Call.reconnects = true ∧
      (s'.client A).disconnected = (s.client A).disconnected

theorem rejoins_same (ht : ∀ T, s'.thread A T = s.thread A T)
    (hoff : (s'.client A).disconnected = (s.client A).disconnected) : Rejoins s s' A := by
  intro T hT
  rw [ht] at hT
  exact ⟨hT, hoff⟩

theorem rejoins_replaces (h : Replaces s s' B T f' rest)
    (hcalls : (s.thread B T).calls = f :: rest) (hf : f'.reconnects = false)
    (hoff : ∀ A, (s'.client A).disconnected = (s.client A).disconnected) (A : ℕ) :
    Rejoins s s' A := by
  intro U hU
  refine ⟨?_, hoff A⟩
  rw [h A U] at hU
  split_ifs at hU with hA
  · obtain ⟨rfl,rfl⟩ := hA
    simp only [List.any_cons, hf, Bool.false_or] at hU
    simp [hcalls, hU]
  · exact hU

theorem offline_answer (c' : Client) (hc : c'.disconnected = (s.client o).disconnected)
    (calls : List Call) (C : ℕ) : (((s.setClient o c').setCalls B T calls).client C).disconnected =
      (s.client C).disconnected := by
  rw [client_setCalls]
  by_cases hB : B = C
  · subst hB
    rw [if_pos rfl, offline_setCalls, client_setClient]
    split_ifs with ho
    · subst ho; exact hc
    · rfl
  · rw [if_neg hB, client_setClient]
    split_ifs with ho
    · subst ho; exact hc
    · rfl

theorem offline_sys_setCalls (s : Sys) (B T C : ℕ) (calls : List Call) :
    ((s.setCalls B T calls).client C).disconnected = (s.client C).disconnected := by
  rw [client_setCalls]
  split_ifs with hB
  · subst hB; rfl
  · rfl

theorem rejoins_serveRelease {lid id : ℕ} (hcalls : (s.thread B T).calls = f :: rest)
    (hf : f'.reconnects = false) (A : ℕ) :
    Rejoins s (s.serveRelease lid id B T (f' :: rest)) A := by
  by_cases ho : (s.lockTable.info lid).owner = some id
  · rw [serveRelease_owner ho]
    exact rejoins_replaces (replaces_setCalls s B T f' rest) hcalls hf
      (fun C => offline_sys_setCalls s B T C _) A
  · rw [serveRelease_other ho]
    exact rejoins_same (fun _ => rfl) rfl

theorem rejoins_serve (h : s.serve A T = some s') (C : ℕ) : Rejoins s s' C := by
  unfold Sys.serve at h
  split at h
  · rename_i hcalls
    cases h
    exact rejoins_replaces (replaces_setCalls s A T _ _) hcalls rfl
      (fun C => offline_sys_setCalls s A T C _) C
  · rename_i hcalls
    cases h
    exact rejoins_serveRelease hcalls rfl C
  · cases h

theorem rejoins_revoke (h : s.revoke B T = some s') (C : ℕ) : Rejoins s s' C := by
  obtain ⟨lid,o,rest,hcalls,⟨-,rfl⟩ | ⟨-,st,-,rfl⟩ | ⟨-,-,⟨-,rfl⟩ | ⟨c,t,-,rfl⟩⟩⟩ := revoke_cases h
  · exact rejoins_same (fun _ => rfl) rfl
  · have hrep := replaces_answer (s := s) (o := o) ((s.client o).setLock lid st false)
      (fun _ => rfl) B T (.acquire lid (.reply .retry)) rest
    have hoff := offline_answer (s := s) (o := o) (B := B) (T := T)
      ((s.client o).setLock lid st false) rfl (.acquire lid (.reply .retry) :: rest)
    exact rejoins_replaces hrep hcalls rfl hoff C
  · exact rejoins_same (fun _ => rfl) rfl
  · have hrep := replaces_answer (s := s) (o := o)
      (((s.client o).setLock lid .freeRls false).setCache c)
      (fun _ => rfl) B T (.acquire lid (.revoking o .releasing)) rest
    have hoff := offline_answer (s := s) (o := o) (B := B) (T := T)
      (((s.client o).setLock lid .freeRls false).setCache c) rfl
      (.acquire lid (.revoking o .releasing) :: rest)
    exact rejoins_replaces hrep hcalls rfl hoff C

/-- A step in which only client `B` changes. -/
theorem rejoins_setClient (c' : Client) (hc : ∀ C, s'.client C = if B = C then c' else s.client C)
    (ht : ∀ T, c'.thread T = s.thread B T) (hoff : c'.disconnected = (s.client B).disconnected)
    (C : ℕ) : Rejoins s s' C := by
  by_cases hC : B = C
  · subst hC
    have := hc B
    rw [if_pos rfl] at this
    apply rejoins_same
    · intro T
      rw [Sys.thread, this]
      exact ht T
    · rw [this, hoff]
  · have := hc C
    rw [if_neg hC] at this
    apply rejoins_same
    · intro T
      rw [Sys.thread, this]
      rfl
    · rw [this]

theorem rejoins_move {m : Move} {c' : Client} {t' : Table} (hs : s.Sound)
    (hmove : (s.client A).move s.table s.now T m = some (.done c' t')) (hm : m ≠ .reconnect)
    (C : ℕ) : Rejoins s { s.setClient A c' with table := t' } C := by
  have honly := (move_simulates (sound_fit hs A) (hs.settled A) hm hmove).1
  have hc := client_setClient s A C c'
  intro U hU
  change ((s.setClient A c').thread C U).calls.any _ = true at hU
  change _ ∧ ((s.setClient A c').client C).disconnected = _
  rw [Sys.thread, hc] at hU
  rw [hc]
  split_ifs at hU ⊢ with hC
  · subst hC
    refine ⟨?_, honly.offline⟩
    by_cases hTU : T = U
    · subst hTU
      exact honly.reconnects hU
    · rw [honly.others U hTU] at hU
      exact hU
  · exact ⟨hU, rfl⟩

/-- Who enters the loop of `disconnect(false)`, and who leaves it to go offline again. -/
theorem step_rejoins (hs : s.Sound) (h : s.step e = some s') (C : ℕ) :
    Rejoins s s' C ∨ (e = .disconnect C ∧ ∀ T, s'.thread C T = s.thread C T) ∨
      ((∃ T, e = .client C T .reconnect) ∧ (s.client C).disconnected = true ∧
        (s'.client C).disconnected = false) := by
  have hup : ∀ o : Option Sys, (if s.lockServerUp = true then o else none) = some s' →
      o = some s' := by
    intro o ho
    split_ifs at ho
    exact ho
  cases e with
  | client A T m =>
    simp only [Sys.step] at h
    split_ifs at h
    split at h
    · cases h
    · rename_i c' t' hmove
      cases h
      by_cases hm : m = .reconnect
      · subst hm
        by_cases hC : A = C
        · subst hC
          have hc : ({ s.setClient A c' with table := t' } : Sys).client A = c' :=
            (client_setClient s A A c').trans (if_pos rfl)
          simp only [Client.move] at hmove
          split_ifs at hmove with hidle
          simp only [Bool.and_eq_true] at hidle
          refine Or.inr (Or.inr ⟨⟨T, rfl⟩, hidle.2, ?_⟩)
          rw [hc]
          simp only [Client.reconnect] at hmove
          split_ifs at hmove
          · cases hmove
          · rw [← (Outcome.done.inj (Option.some.inj hmove)).1]
            rfl
        · left
          have hc : ({ s.setClient A c' with table := t' } : Sys).client C = s.client C :=
            (client_setClient s A C c').trans (if_neg hC)
          apply rejoins_same
          · intro U
            rw [Sys.thread, hc]
            rfl
          · rw [hc]
      · exact Or.inl (rejoins_move hs hmove hm C)
    · cases h
      exact Or.inl (rejoins_setClient { s.client A with aborted := true }
        (fun C => client_setClient s A C _) (fun _ => rfl) rfl C)
    · cases h
      exact Or.inl (rejoins_same (fun _ => rfl) rfl)
  | serve A T => exact Or.inl (rejoins_serve (hup _ h) C)
  | revoke B T => exact Or.inl (rejoins_revoke (hup _ h) C)
  | serveRevoked B T =>
    replace h := hup _ h
    unfold Sys.serveRevoked at h
    split at h
    · rename_i hcalls
      cases h
      exact Or.inl (rejoins_serveRelease hcalls rfl C)
    · cases h
  | revoked B T =>
    replace h := hup _ h
    unfold Sys.revoked at h
    split at h
    · rename_i lid o rest hcalls
      dsimp only at h
      split_ifs at h
      cases h
      have hrep := replaces_answer (s := s) (o := o)
        ((s.client o).setLock lid .none ((s.client o).lock lid).stale)
        (fun _ => rfl) B T (.acquire lid (.reply .retry)) rest
      have hoff := offline_answer (s := s) (o := o) (B := B) (T := T)
        ((s.client o).setLock lid .none ((s.client o).lock lid).stale) rfl
        (.acquire lid (.reply .retry) :: rest)
      exact Or.inl (rejoins_replaces hrep hcalls rfl hoff C)
    · cases h
  | retry lid B =>
    obtain ⟨-,⟨-,rfl⟩ | ⟨-,st,-,rfl⟩⟩ := retry_cases (hup _ h)
    · exact Or.inl (rejoins_same (fun _ => rfl) rfl)
    · exact Or.inl (rejoins_setClient
        ((s.client B).setLock lid st ((s.client B).lock lid).stale)
        (fun C => client_setClient s B C _) (fun _ => rfl) rfl C)
  | disconnect A =>
    replace h := hup _ h
    unfold Sys.disconnect at h
    dsimp only at h
    split_ifs at h
    cases h
    have hc := client_setClient s A C (s.client A).goOffline
    by_cases hC : A = C
    · subst hC
      refine Or.inr (Or.inl ⟨rfl, fun T => ?_⟩)
      change ((s.setClient A (s.client A).goOffline).client A).thread T = _
      rw [hc, if_pos rfl]
      rfl
    · rw [if_neg hC] at hc
      exact Or.inl (rejoins_same (fun T => congrArg (Client.thread · T) hc)
        (congrArg Client.disconnected hc))
  | clock now =>
    cases h
    exact Or.inl (rejoins_same (fun _ => rfl) rfl)

/-- Only a client that goes offline while it reconnects would not be settled. -/
theorem step_settled (hs : s.Sound) (hq : ∀ A, e = .disconnect A → s.quiet A = true)
    (h : s.step e = some s') (C : ℕ) : (s'.client C).Settled := by
  intro T hT
  obtain hr | ⟨rfl,hthread⟩ | ⟨-,-,hoff⟩ := step_rejoins hs h C
  · obtain ⟨hT',hoff⟩ := hr T hT
    rw [hoff]
    exact hs.settled C T hT'
  · -- a quiet thread does not reconnect
    have hquiet := (quiet_cases (hq C rfl)).1 T
    change (s'.thread C T).calls.any _ = true at hT
    rw [hthread T] at hT
    unfold Thread.quiet at hquiet
    split at hquiet <;> simp_all [Call.reconnects]
  · exact hoff

end Rejoins

/-- Nobody has the lock, wants it or has a copy of the extent. -/
def LockView.init : LockView where
  owner := none
  waiting := []
  pending _ := 0
  party _ := ⟨false, .none, false, none, none⟩
  mark _ _ := []
  extent := none

theorem view_init (l : ℕ) : Sys.init.view l (fun _ => none) = LockView.init := rfl

theorem tracks_init (l : ℕ) : Sys.init.Tracks l (fun _ => none) := ⟨fun _ _ => rfl, rfl⟩

theorem good_init : Good LockView.init := by
  constructor <;> simp [LockView.init, Party.Fits, Party.Owns, Party.due]

theorem sound_init : Sys.init.Sound :=
  ⟨fun _ _ _ => rfl, fun l => ⟨_, tracks_init l, by rw [view_init]; exact good_init⟩⟩

/-- The rule for what holds of each lock along a run, and may depend on the run's events: it holds
initially and every step of the system keeps it. -/
theorem lock_history {C : Sys → Event → Prop} {P : List Event → ℕ → LockView → Prop}
    (hq : ∀ s A, C s (.disconnect A) → s.quiet A = true) (hinit : ∀ l, P [] l LockView.init)
    (hstep : ∀ es s e s' l g g',
      (∀ l, ∃ g, s.Tracks l g ∧ Good (s.view l g) ∧ P es l (s.view l g)) → s.Tracks l g →
      Good (s.view l g) → P es l (s.view l g) → C s e →
      (∀ k, Accounts s e l k → ∀ A, k = .disconnect A → (s.view l g).Quiet A) →
      s.step e = some s' → s'.Tracks l g' → Progress s e s' l g g' →
      P (es ++ [e]) l (s'.view l g'))
    {es : List Event} {s : Sys} (hc : TraceSystem.Meets Sys.step C Sys.init es)
    (hrun : Sys.run es = some s) :
    s.Sound ∧ ∀ l, ∃ g, s.Tracks l g ∧ Good (s.view l g) ∧ P es l (s.view l g) := by
  refine TraceSystem.Meets.history (I := fun es s => s.Sound ∧
    ∀ l, ∃ g, s.Tracks l g ∧ Good (s.view l g) ∧ P es l (s.view l g)) ?_ ?_ hc hrun
  · refine ⟨sound_init, fun l => ⟨_, tracks_init l, ?_⟩⟩
    rw [view_init]
    exact ⟨good_init, hinit l⟩
  · rintro fs e r r' _ _ ⟨hsound,hlocks⟩ hCe hrr'
    have hquiet : ∀ A, e = .disconnect A → r.quiet A = true := by
      intro A hA
      subst hA
      exact hq r A hCe
    have hlocks' : ∀ l, ∃ g', r'.Tracks l g' ∧ Good (r'.view l g') ∧
        P (fs ++ [e]) l (r'.view l g') := by
      intro l
      obtain ⟨g,ht,hg,hP⟩ := hlocks l
      obtain ⟨g',ht',hprog⟩ := step_advances hsound ht hg hrr'
      have hquiet' : ∀ k, Accounts r e l k → ∀ A, k = .disconnect A → (r.view l g).Quiet A := by
        intro k hk A hA
        subst hA
        exact quiet_view (hquiet A hk) ht hg
      refine ⟨g', ht', ?_, hstep fs r e r' l g g' hlocks ht hg hP hCe hquiet' hrr' ht' hprog⟩
      obtain heq | ⟨k,hk,hls⟩ := hprog
      · rw [heq]; exact hg
      · exact good_step hg hls (hquiet' k hk)
    refine ⟨⟨step_settled hsound hquiet hrr', fun l => ?_⟩, hlocks'⟩
    obtain ⟨g',ht',hg',-⟩ := hlocks' l
    exact ⟨g', ht', hg'⟩

/-- The same rule for what the protocol's own steps keep, if the condition on the run's steps
allows only certain steps of the protocol. -/
theorem lock_invariant {C : Sys → Event → Prop} {P : LockView → Prop}
    {D : LockEvent → LockView → Prop} (hq : ∀ s A, C s (.disconnect A) → s.quiet A = true)
    (hD : ∀ s e l g k, C s e → Accounts s e l k → D k (s.view l g)) (hinit : P LockView.init)
    (hstep : ∀ k v v', Good v → P v → D k v → (∀ A, k = .disconnect A → v.Quiet A) →
      LockStep k v v' → P v')
    {es : List Event} {s : Sys} (hc : TraceSystem.Meets Sys.step C Sys.init es)
    (hrun : Sys.run es = some s) :
    s.Sound ∧ ∀ l, ∃ g, s.Tracks l g ∧ Good (s.view l g) ∧ P (s.view l g) := by
  refine lock_history (P := fun _ _ v => P v) hq (fun _ => hinit) ?_ hc hrun
  intro _ s e s' l g g' _ _ hg hP hCe hquiet _ _ hprog
  obtain heq | ⟨k,hk,hls⟩ := hprog
  · rw [heq]; exact hP
  · exact hstep k _ _ hg hP (hD s e l g k hCe hk) (hquiet k hk) hls

/-- A run given by its events, with a test of the state it reaches. -/
theorem run_reaches {P : Sys → Prop} [DecidablePred P] {es : List Event}
    (h : (Sys.run es).any (fun s => decide (P s)) = true) : ∃ s, Sys.run es = some s ∧ P s := by
  exact TraceSystem.reaches_of_any Sys.step P Sys.init es h

/-! Pieces of runs, for the scenarios of the following modules: a thread sends an acquire request,
gets a free lock, reads and writes the extent, releases a lock, and has another client's cached
lock revoked and granted to its own. -/

def asks (A T l : ℕ) : List Event :=
  [.client A T (.callAcquire l), .client A T (.turn 0 0), .client A T (.turn 0 0)]

def acquires (A T l : ℕ) : List Event := asks A T l ++ [.serve A T, .client A T .wake]

def reads (A T l : ℕ) : List Event := [.client A T (.access l .get)]

def writes (A T l : ℕ) (buf : Str) : List Event := [.client A T (.put l buf)]

def releases (A T l : ℕ) : List Event :=
  [.client A T (.callRelease l false), .client A T (.turn 0 0)]

def steals (B T l : ℕ) : List Event :=
  [.serve B T, .revoke B T, .serveRevoked B T, .revoked B T, .client B T .wake, .retry l B,
    .client B T .wake, .serve B T]

end DisconnectedYfs.YFS
