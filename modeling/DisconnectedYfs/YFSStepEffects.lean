import DisconnectedYfs.YFSMoveEffects
import DisconnectedYfs.YFSSystemSimulation

/-! What one step of the system does to stacks and to lock states, whatever the run before it. -/
namespace DisconnectedYfs.YFS
open Std

/-- The call is at the lock server or its answer on the way back. -/
def Call.remote : Call → Bool
  | .acquire _ .call | .acquire _ (.revoking _ _) | .acquire _ (.reply _) => true
  | .release _ .call | .release _ .reply => true
  | _ => false

def Sys.lockState (s : Sys) (A l : ℕ) : LState := ((s.client A).lock l).state

/-- The owner's revoke handler has found the lock `FREE` and waits for its release RPC. -/
def Call.givingBack : Call → Bool
  | .acquire _ (.revoking _ .releasing) => true
  | _ => false

/-- The server has not handled the request yet. -/
def Call.called : Call → Bool
  | .acquire _ .call | .release _ .call => true
  | _ => false

/-- A request moves on at the server; lock states change only as `st` says. -/
structure Served (s s' : Sys) (B T : ℕ) (f : Call) (st : ℕ → ℕ → LState) : Prop where
  stack : ∃ f' rest, (s.thread B T).calls = f :: rest ∧ f'.remote = true ∧
    (f'.givingBack = true →
      ∃ lid o, f = .acquire lid (.revoking o .sent) ∧ s.lockState o lid = .free) ∧
    Replaces s s' B T f' rest
  lock : ∀ C l, s'.lockState C l = st C l

inductive StepEffect (s s' : Sys) : Event → Prop
  -- also a failed `VERIFY`, which leaves everything but the flag that says so
  | stays {e} (hthread : ∀ C U, s'.thread C U = s.thread C U)
      (hlock : ∀ C l, s'.lockState C l = s.lockState C l) (hd : ∀ A, e ≠ .disconnect A) :
      StepEffect s s' e
  | client {A T m c'} (hmoved : Moved (s.client A) T m c')
      (hclient : ∀ C, s'.client C = if A = C then c' else s.client C) :
      StepEffect s s' (.client A T m)
  | served {e B T f} (h : Served s s' B T f s.lockState)
      (he : e = .serve B T ∧ f.called = true ∨ e = .serveRevoked B T ∧ f.givingBack = true) :
      StepEffect s s' e
  | revoke {B T lid o} (st : LState) (h : Served s s' B T (.acquire lid (.revoking o .sent))
        (fun C l => if C = o ∧ l = lid then st else s.lockState C l))
      (hst : st = .releasing ∧ s.lockState o lid ≠ .none ∧ s.lockState o lid ≠ .free ∨
        st = .freeRls ∧ s.lockState o lid = .free ∨ st = s.lockState o lid) :
      StepEffect s s' (.revoke B T)
  | revoked {B T lid o} (h : Served s s' B T (.acquire lid (.revoking o .released))
        (fun C l => if C = o ∧ l = lid then .none else s.lockState C l)) :
      StepEffect s s' (.revoked B T)
  | retry {lid B} (st : LState) (hthread : ∀ C U, s'.thread C U = s.thread C U)
      (hlock : ∀ C l, s'.lockState C l = if C = B ∧ l = lid then st else s.lockState C l)
      (hst : s.lockState B lid = .acquiring ∧ st = .waiting ∨
        s.lockState B lid = .waiting ∧ st = .acquiring ∧
          (s.client B).disconnected = false ∧ (lid, B) ∉ s.dangling ∨
        s.lockState B lid ≠ .waiting ∧ st = s.lockState B lid) : StepEffect s s' (.retry lid B)
  | disconnect {A} (hthread : ∀ C U, s'.thread C U = s.thread C U)
      (hlock : ∀ C l, s'.lockState C l =
        if C = A then (s.lockState C l).offline else s.lockState C l) :
      StepEffect s s' (.disconnect A)

section
variable {s s' : Sys} {e : Event} {A B T o lid : ℕ} {f f' : Call} {rest : List Call}

theorem lockState_setCalls (s : Sys) (B T C l : ℕ) (calls : List Call) :
    (s.setCalls B T calls).lockState C l = s.lockState C l := by
  unfold Sys.lockState
  rw [client_setCalls]
  split_ifs with hC
  · subst hC
    rfl
  · rfl

theorem lockState_setLock (s : Sys) (c : Client) (st : LState) (stale : Bool) (o lid C l : ℕ)
    (hc : ∀ l, c.lock l = ((s.client o).setLock lid st stale).lock l) :
    (s.setClient o c).lockState C l = if C = o ∧ l = lid then st else s.lockState C l := by
  unfold Sys.lockState
  rw [client_setClient]
  by_cases hC : o = C
  · subst hC
    rw [if_pos rfl, hc, lock_setLock]
    by_cases hl : lid = l
    · simp [hl]
    · rw [if_neg hl, if_neg (fun h => hl h.2.symm)]
  · rw [if_neg hC, if_neg (fun h => hC h.1.symm)]

theorem serveRelease_effect {id : ℕ} (hcalls : (s.thread B T).calls = f :: rest)
    (hf' : f'.remote = true) (hback : f'.givingBack = false)
    (he : e = .serve B T ∧ f.called = true ∨ e = .serveRevoked B T ∧ f.givingBack = true) :
    StepEffect s (s.serveRelease lid id B T (f' :: rest)) e := by
  by_cases ho : (s.lockTable.info lid).owner = some id
  · rw [serveRelease_owner ho]
    refine .served ⟨⟨f', rest, hcalls, hf', ?_, replaces_setCalls s B T f' rest⟩,
      fun C l => ?_⟩ he
    · simp [hback]
    · exact lockState_setCalls s B T C l _
  · rw [serveRelease_other ho]
    refine .stays (fun _ _ => rfl) (fun _ _ => rfl) (fun A => ?_)
    rcases he with ⟨rfl,-⟩ | ⟨rfl,-⟩ <;> simp

theorem serve_effect (h : s.serve A T = some s') : StepEffect s s' (.serve A T) := by
  unfold Sys.serve at h
  split at h
  · rename_i lid rest hcalls
    cases h
    refine .served ⟨⟨_, rest, hcalls, ?_, ?_, replaces_setCalls s A T _ rest⟩, fun C l => ?_⟩
      (Or.inl ⟨rfl, rfl⟩)
    · split <;> rfl
    · split <;> simp [Call.givingBack]
    · exact lockState_setCalls s A T C l _
  · rename_i hcalls
    cases h
    exact serveRelease_effect hcalls rfl rfl (Or.inl ⟨rfl, rfl⟩)
  · cases h

theorem revoke_effect (h : s.revoke B T = some s') : StepEffect s s' (.revoke B T) := by
  obtain ⟨lid,o,rest,hcalls,⟨-,rfl⟩ | ⟨-,st,hst,rfl⟩ | ⟨-,hfree,⟨-,rfl⟩ | ⟨c,t,-,rfl⟩⟩⟩ :=
    revoke_cases h
  · exact .stays (fun _ _ => rfl) (fun _ _ => rfl) (fun _ => by simp)
  · have hrep := replaces_answer (s := s) (o := o) ((s.client o).setLock lid st false)
      (fun _ => rfl) B T (.acquire lid (.reply .retry)) rest
    refine .revoke st ⟨⟨.acquire lid (.reply .retry), rest, hcalls, rfl,
      (fun h => nomatch h), hrep⟩, fun C l => ?_⟩ ?_
    · rw [lockState_setCalls]
      exact lockState_setLock s ((s.client o).setLock lid st false) st false o lid C l
        (fun _ => rfl)
    · rcases hst with ⟨hs,rfl⟩ | ⟨-,rfl⟩
      · refine Or.inl ⟨rfl, ?_⟩
        unfold Sys.lockState
        rcases hs with hs | hs | hs <;> rw [hs] <;> decide
      · exact Or.inr (Or.inr rfl)
  · exact .stays (fun _ _ => rfl) (fun _ _ => rfl) (fun _ => by simp)
  · have hrep := replaces_answer (s := s) (o := o)
      (((s.client o).setLock lid .freeRls false).setCache c)
      (fun _ => rfl) B T (.acquire lid (.revoking o .releasing)) rest
    refine .revoke .freeRls
      ⟨⟨_, rest, hcalls, rfl, (fun _ => ⟨lid, o, rfl, hfree⟩), hrep⟩, fun C l => ?_⟩
      (Or.inr (Or.inl ⟨rfl, hfree⟩))
    refine (lockState_setCalls _ B T C l _).trans ?_
    exact lockState_setLock s (((s.client o).setLock lid .freeRls false).setCache c) .freeRls false
      o lid C l (fun _ => rfl)

theorem revoked_effect (h : s.revoked B T = some s') : StepEffect s s' (.revoked B T) := by
  unfold Sys.revoked at h
  split at h
  · rename_i lid o rest hcalls
    dsimp only at h
    split_ifs at h
    cases h
    have hrep := replaces_answer (s := s) (o := o)
      ((s.client o).setLock lid .none ((s.client o).lock lid).stale) (fun _ => rfl) B T
      (.acquire lid (.reply .retry)) rest
    refine .revoked ⟨⟨.acquire lid (.reply .retry), rest, hcalls, rfl, (fun h => nomatch h), hrep⟩,
      fun C l => ?_⟩
    rw [lockState_setCalls]
    exact lockState_setLock s ((s.client o).setLock lid .none ((s.client o).lock lid).stale) .none
      _ o lid C l (fun _ => rfl)
  · cases h

theorem retry_effect (h : s.retry lid B = some s') : StepEffect s s' (.retry lid B) := by
  obtain ⟨-,⟨-,rfl⟩ | ⟨hoff,st,hst,rfl⟩⟩ := retry_cases h
  · exact .stays (fun _ _ => rfl) (fun _ _ => rfl) (fun _ => by simp)
  · refine .retry st (fun C U => ?_) (fun C l => ?_) ?_
    · change ((s.setClient B _).client C).thread U = _
      rw [client_setClient]
      split_ifs with hC
      · subst hC
        rfl
      · rfl
    · exact lockState_setLock s ((s.client B).setLock lid st ((s.client B).lock lid).stale) st _
        B lid C l (fun _ => rfl)
    · rcases hst with ⟨hs,rfl⟩ | ⟨hs,rfl⟩ | ⟨-,hs,rfl⟩
      · exact Or.inl ⟨hs, rfl⟩
      · exact Or.inr (Or.inl ⟨hs, rfl, hoff⟩)
      · exact Or.inr (Or.inr ⟨hs, rfl⟩)

theorem disconnect_effect (h : s.disconnect A = some s') : StepEffect s s' (.disconnect A) := by
  unfold Sys.disconnect at h
  dsimp only at h
  split_ifs at h
  cases h
  refine .disconnect (fun C U => ?_) (fun C l => ?_)
  · change ((s.setClient A _).client C).thread U = _
    rw [client_setClient]
    split_ifs with hC
    · subst hC
      rfl
    · rfl
  · change (((s.setClient A _).client C).lock l).state = _
    rw [client_setClient]
    by_cases hC : A = C
    · subst hC
      rw [if_pos rfl, if_pos rfl, lock_goOffline]
      rfl
    · rw [if_neg hC, if_neg (Ne.symm hC)]
      rfl

/-- The lock server's events happen only while it is up. -/
theorem of_server_up {o : Option Sys} (h : (if s.lockServerUp = true then o else none) = some s') :
    o = some s' := by
  split_ifs at h
  exact h

theorem client_effect {m : Move} (hb : ∀ A T, Bottomed (s.thread A T).calls)
    (h : s.step (.client A T m) = some s') : StepEffect s s' (.client A T m) := by
  simp only [Sys.step] at h
  split_ifs at h
  split at h
  · cases h
  · rename_i c' t' hmove
    cases h
    exact .client (move_moved (hb A T) hmove) (fun C => client_setClient s A C c')
  · cases h
    refine .stays (fun C U => ?_) (fun C l => ?_) (fun _ => by simp)
    · change ((s.setClient A _).client C).thread U = _
      rw [client_setClient]
      split_ifs with hC
      · subst hC
        rfl
      · rfl
    · change (((s.setClient A _).client C).lock l).state = _
      rw [client_setClient]
      split_ifs with hC
      · subst hC
        rfl
      · rfl
  · cases h
    exact .stays (fun _ _ => rfl) (fun _ _ => rfl) (fun _ => by simp)

theorem message_effect (he : ∀ A T m, e ≠ .client A T m) (h : s.step e = some s') :
    StepEffect s s' e := by
  cases e with
  | client A T m => exact absurd rfl (he A T m)
  | serve A T => exact serve_effect (of_server_up h)
  | revoke B T => exact revoke_effect (of_server_up h)
  | serveRevoked B T =>
    replace h := of_server_up h
    unfold Sys.serveRevoked at h
    split at h
    · rename_i hcalls
      cases h
      exact serveRelease_effect hcalls rfl rfl (Or.inr ⟨rfl, rfl⟩)
    · cases h
  | revoked B T => exact revoked_effect (of_server_up h)
  | retry lid B => exact retry_effect (of_server_up h)
  | disconnect A => exact disconnect_effect (of_server_up h)
  | clock now =>
    cases h
    exact .stays (fun _ _ => rfl) (fun _ _ => rfl) (fun _ => by simp)

theorem step_effect (hb : ∀ A T, Bottomed (s.thread A T).calls) (h : s.step e = some s') :
    StepEffect s s' e := by
  cases e with
  | client A T m => exact client_effect hb h
  | _ => exact message_effect (by simp) h

theorem remote_reconnects (h : f.remote = true) : f.reconnects = false := by
  cases f with
  | reconnect => cases h
  | _ => rfl

theorem remote_of_served
    (h : e = .serve B T ∧ f.called = true ∨ e = .serveRevoked B T ∧ f.givingBack = true) :
    f.remote = true := by
  rcases h with ⟨-,h⟩ | ⟨-,h⟩
  · unfold Call.called at h
    split at h
    · rfl
    · rfl
    · cases h
  · unfold Call.givingBack at h
    split at h
    · rfl
    · cases h

/-- The stack of a thread changes at the server, with a remote call on top, or by the thread's own
moves. -/
theorem StepEffect.thread_cases (h : StepEffect s s' e) (A T : ℕ) :
    s'.thread A T = s.thread A T ∨
    (∃ f f' rest, (s.thread A T).calls = f :: rest ∧ (s'.thread A T).calls = f' :: rest ∧
      f.remote = true ∧ f'.remote = true) ∨
    ∃ m, e = .client A T m ∧ Moved (s.client A) T m (s'.client A) := by
  have hserved : ∀ {B U f st}, f.remote = true → Served s s' B U f st →
      s'.thread A T = s.thread A T ∨ ∃ f f' rest, (s.thread A T).calls = f :: rest ∧
        (s'.thread A T).calls = f' :: rest ∧ f.remote = true ∧ f'.remote = true := by
    intro B U f st hf hs
    obtain ⟨f',rest,hcalls,hf',-,hrep⟩ := hs.stack
    rw [hrep A T]
    split_ifs with hC
    · obtain ⟨rfl,rfl⟩ := hC
      exact Or.inr ⟨f, f', rest, hcalls, rfl, hf, hf'⟩
    · exact Or.inl rfl
  cases h with
  | stays hthread _ _ => exact Or.inl (hthread A T)
  | @client B U m c' hmoved hclient =>
    have hB := hclient A
    unfold Sys.thread
    rw [hB]
    split_ifs with hA
    · subst hA
      by_cases hU : T = U
      · subst hU
        exact Or.inr (Or.inr ⟨m, rfl, hmoved⟩)
      · exact Or.inl (hmoved.others T hU)
    · exact Or.inl rfl
  | served h he => exact (hserved (remote_of_served he) h).imp_right Or.inl
  | revoke st h _ => exact (hserved rfl h).imp_right Or.inl
  | revoked h => exact (hserved rfl h).imp_right Or.inl
  | retry st hthread _ _ => exact Or.inl (hthread A T)
  | disconnect hthread _ => exact Or.inl (hthread A T)

/-- The stack of every thread makes a step, if it changes. -/
theorem StepEffect.stack (h : StepEffect s s' e) (C U : ℕ) :
    s'.thread C U = s.thread C U ∨ Swaps (s.thread C U).calls (s'.thread C U).calls ∨
      ((∃ m, e = .client C U m) ∧
        StackStep (s.client C).lockStatus (s.thread C U).calls (s'.thread C U).calls) := by
  rcases h.thread_cases C U with heq | ⟨f,f',rest,hcalls,hcalls',hf,hf'⟩ | ⟨m,rfl,hmoved⟩
  · exact Or.inl heq
  · rw [hcalls, hcalls']
    exact Or.inr (Or.inl (Swaps.top (remote_reconnects hf) (remote_reconnects hf')))
  · exact Or.inr (Or.inr ⟨⟨m, rfl⟩, hmoved.stack⟩)

theorem StepEffect.bottomed (h : StepEffect s s' e) (hb : ∀ A T, Bottomed (s.thread A T).calls)
    (A T : ℕ) : Bottomed (s'.thread A T).calls := by
  rcases h.stack A T with heq | hswap | ⟨-,hstack⟩
  · rw [heq]
    exact hb A T
  · exact hswap.bottomed (hb A T)
  · exact hstack.bottomed (hb A T)

theorem bottomed_init (A T : ℕ) : Bottomed (Sys.init.thread A T).calls := by
  rw [bottomed_iff]
  exact fun f hf => by cases hf

end

end DisconnectedYfs.YFS
