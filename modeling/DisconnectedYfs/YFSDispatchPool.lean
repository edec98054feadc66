import DisconnectedYfs.YFSLockRuns
import DisconnectedYfs.YFSStepEffects

/-! The lock server's dispatch pool (`thr_pool.cc`, `rpcs::got_pdu`). The system's steps let the
server handle a request at any time; here six workers take the requests from one queue, and the
handler of an acquire keeps its worker until the revoke that it sends is answered. -/
namespace DisconnectedYfs.YFS
open Std

/-- An RPC to the lock server: an acquire or release of thread `T` of `A`; the release of the revoke
handler that the request of thread `T` of `B` has set off; `disconnect_server`. -/
inductive Job where
  | request (A T : ℕ)
  | release (B T : ℕ)
  | disconnect (A : ℕ)
deriving DecidableEq, Repr

/-- The handler's part of the system's step. -/
def Job.event : Job → Event
  | .request A T => .serve A T
  | .release B T => .serveRevoked B T
  | .disconnect A => .disconnect A

/-- The acquire or release request, if the job is one. -/
def Job.requests : Job → List (ℕ × ℕ)
  | .request A T => [(A, T)]
  | _ => []

/-- `jobq_` is the queue of the pool. Of the workers' jobs, `taken` are those whose handler has not
started, and `blocked` the acquire requests whose handler is in `send_revoke`. -/
structure Pool where
  sys : Sys := {}
  jobq : List Job := []
  taken : List Job := []
  blocked : List (ℕ × ℕ) := []

/-- A step outside the pool, an RPC that reaches `got_pdu`, a worker that takes a job, and a worker
that runs the handler of the job it has taken. -/
inductive PoolEvent where
  | step (e : Event)
  | arrive (j : Job)
  | take
  | run (j : Job)
deriving DecidableEq, Repr

/-- `ThrPool(6, false)`, with `jobq_(100*sz)`. -/
def poolSize : ℕ := 6

def queueSize : ℕ := 100 * poolSize

/-- The revoke handler that the thread's request has set off waits for its release RPC. -/
def Thread.givingBack (th : Thread) : Bool := th.calls.head?.any Call.givingBack

/-- The RPC is on its way. `disconnect(true)` keeps the client's mutex while its RPC is. -/
def Sys.sent (s : Sys) : Job → Bool
  | .request A T =>
    match (s.thread A T).calls with
    | .acquire _ .call :: _ | .release _ .call :: _ => true
    | _ => false
  | .release B T => (s.thread B T).givingBack
  | .disconnect A =>
    !(s.client A).aborted && (s.client A).lcMutex = none && !(s.client A).disconnected

/-- The request's handler at the server waits for a revoke. -/
def Sys.revoking (s : Sys) (q : ℕ × ℕ) : Bool :=
  match (s.thread q.1 q.2).calls with
  | .acquire _ (.revoking _ _) :: _ => true
  | _ => false

/-- The client whose lock client mutex a step takes. -/
def Sys.mutexOf (s : Sys) : Event → Option ℕ
  | .client A _ m =>
    match m with
    | .callAcquire _ | .callRelease _ _ | .turn _ _ | .wake | .reconnect => some A
    | _ => none
  | .revoke B T | .revoked B T =>
    match (s.thread B T).calls with
    | .acquire _ (.revoking o _) :: _ => some o
    | _ => none
  | .retry _ B => some B
  | _ => none

/-- The steps that are handlers of the lock server. -/
def Event.handled : Event → Bool
  | .serve _ _ | .serveRevoked _ _ | .disconnect _ => true
  | _ => false

namespace Pool

/-- `disconnect(true)` of the client waits for the server. -/
def disconnecting (p : Pool) (A : ℕ) : Bool := .disconnect A ∈ p.jobq || .disconnect A ∈ p.taken

/-- The system is in state `s`, and the workers whose handler has returned are free again. Of the
requests `qs`, those whose handler has sent a revoke keep their worker. -/
def reach (p : Pool) (qs : List (ℕ × ℕ)) (s : Sys) : Pool :=
  ⟨s, p.jobq, p.taken.filter s.sent, (qs ++ p.blocked).filter s.revoking⟩

def step (p : Pool) : PoolEvent → Option Pool
  | .step e =>
    if e.handled || (p.sys.mutexOf e).any p.disconnecting then none
    else (p.sys.step e).map (p.reach [])
  | .arrive j =>
    if p.sys.sent j && j ∉ p.jobq && j ∉ p.taken && p.jobq.length < queueSize then
      some { p with jobq := p.jobq ++ [j] }
    else none
  | .take =>
    match p.jobq with
    | [] => none
    | j :: jobq =>
      if p.taken.length + p.blocked.length < poolSize then
        some { p with jobq := jobq, taken := j :: p.taken }
      else none
  | .run j => if j ∈ p.taken then (p.sys.step j.event).map (p.reach j.requests) else none

/-- All workers wait for revokes, and each of these for a release RPC that is still in the queue. -/
def Starved (p : Pool) : Prop :=
  p.blocked.length = poolSize ∧ ∀ q ∈ p.blocked,
    (p.sys.thread q.1 q.2).givingBack = true ∧ .release q.1 q.2 ∈ p.jobq

instance (p : Pool) : Decidable p.Starved :=
  inferInstanceAs (Decidable (p.blocked.length = poolSize ∧ ∀ q ∈ p.blocked, _ ∧ _))

end Pool

/-- The revoke finds its lock `FREE` at the owner. -/
def Sys.findsFree (s : Sys) : Event → Bool
  | .revoke B T =>
    match (s.thread B T).calls with
    | .acquire lid (.revoking o .sent) :: _ => s.lockState o lid = .free
    | _ => false
  | _ => false

/-- The revoke handlers of all clients that wait for their release RPC, by the request that has set
them off. -/
def Sys.handlers (s : Sys) : List (ℕ × ℕ) :=
  s.clients.toList.flatMap (fun p =>
    (p.2.threads.toList.filter (fun q => q.2.givingBack)).map (fun q => (p.1, q.1)))

/-- A revoke finds its lock `FREE` only while fewer than five other revoke handlers wait for their
release RPC. -/
def Pool.spares (p : Pool) : PoolEvent → Bool
  | .step e => !p.sys.findsFree e || p.sys.handlers.length + 1 < poolSize
  | _ => true

section
variable {s s' : Sys} {e : Event} {p p' : Pool} {pe : PoolEvent} {B T : ℕ}

theorem mem_handlers : (B, T) ∈ s.handlers ↔ (s.thread B T).givingBack = true := by
  unfold Sys.handlers Sys.thread Sys.client Client.thread
  simp only [List.mem_flatMap, List.mem_map, List.mem_filter, Prod.exists, Prod.mk.injEq,
    ExtTreeMap.mem_toList_iff_getElem?_eq_some]
  constructor
  · rintro ⟨B',c,hB,T',th,⟨hT,hback⟩,rfl,rfl⟩
    rw [hB, Option.getD_some, hT]
    exact hback
  · intro hback
    -- clients and threads that have done nothing have no request
    rcases hB : s.clients[B]? with _ | c
    · rw [hB] at hback
      cases hback
    · rw [hB] at hback
      simp only [Option.getD_some] at hback
      rcases hT : c.threads[T]? with _ | th
      · rw [hT] at hback
        cases hback
      · rw [hT] at hback
        exact ⟨B, c, hB, T, th, ⟨hT, hback⟩, rfl, rfl⟩

theorem nodup_handlers (s : Sys) : s.handlers.Nodup := by
  unfold Sys.handlers
  apply List.pairwise_flatMap.mpr
  refine ⟨fun p _ => ?_, ?_⟩
  · apply List.pairwise_map.mpr
    refine (ExtTreeMap.distinct_keys_toList.filter _).imp ?_
    intro a b hne heq
    rw [(Prod.mk.inj heq).2] at hne
    exact hne ReflCmp.compare_self
  · refine ExtTreeMap.distinct_keys_toList.imp ?_
    intro a b hne x hx y hy heq
    obtain ⟨u,-,rfl⟩ := List.mem_map.mp hx
    obtain ⟨v,-,rfl⟩ := List.mem_map.mp hy
    rw [(Prod.mk.inj heq).1] at hne
    exact hne ReflCmp.compare_self

theorem givingBack_iff {th : Thread} : th.givingBack = true ↔
    ∃ lid o rest, th.calls = .acquire lid (.revoking o .releasing) :: rest := by
  constructor
  · intro h
    obtain ⟨f,hf,hgive⟩ := (Option.any_eq_true _ _).mp h
    obtain ⟨rest,hcalls⟩ := List.head?_eq_some_iff.mp hf
    unfold Call.givingBack at hgive
    split at hgive
    · exact ⟨_, _, rest, hcalls⟩
    · cases hgive
  · rintro ⟨lid,o,rest,hcalls⟩
    simp [Thread.givingBack, hcalls, Call.givingBack]

theorem givingBack_parked {c c' : Client} {m : Move} (h : LockEffect c T c' m) :
    (c'.thread T).givingBack = false := by
  have hparked (hp : (c'.thread T).parked = false) : (c'.thread T).givingBack = false := by
    by_contra hback
    rw [Bool.not_eq_false] at hback
    obtain ⟨lid,o,rest,hcalls⟩ := givingBack_iff.mp hback
    simp [Thread.parked, hcalls] at hp
  cases h with
  | stays _ _ _ hnew | givesUp _ _ _ hnew | takes _ _ _ _ _ hnew | replied _ _ _ _ hnew
  | released _ _ _ hnew => exact hparked hnew
  | rises _ _ hnew | sleeps _ _ _ hnew | refused _ _ _ hnew =>
    simp [Thread.givingBack, hnew, Call.givingBack]

/-- A revoke handler begins to wait only when a revoke finds its lock `FREE`. -/
theorem givingBack_before (h : StepEffect s s' e) (hback : (s'.thread B T).givingBack = true) :
    (s.thread B T).givingBack = true ∨ e = .revoke B T ∧ s.findsFree e = true := by
  have hserved : ∀ {C U f st}, Served s s' C U f st → (s.thread B T).givingBack = true ∨
      (C = B ∧ U = T) ∧ ∃ lid o rest, (s.thread B T).calls = f :: rest ∧
        f = .acquire lid (.revoking o .sent) ∧ s.lockState o lid = .free := by
    intro C U f st hs
    obtain ⟨f',rest,hcalls,-,hfree,hrep⟩ := hs.stack
    rw [hrep B T] at hback
    split_ifs at hback with hC
    · obtain ⟨rfl,rfl⟩ := hC
      obtain ⟨lid,o,hf,hst⟩ := hfree hback
      exact Or.inr ⟨⟨rfl, rfl⟩, lid, o, rest, hcalls, hf, hst⟩
    · exact Or.inl hback
  cases h with
  | stays hthread _ _ =>
    rw [hthread] at hback
    exact Or.inl hback
  | @client A U m c' hmoved hclient =>
    left
    unfold Sys.thread at hback ⊢
    rw [hclient] at hback
    split_ifs at hback with hA
    · subst hA
      by_cases hU : T = U
      · subst hU
        -- no move of its own puts a thread into the server's hands
        rw [givingBack_parked hmoved.effect] at hback
        cases hback
      · rw [hmoved.others T hU] at hback
        exact hback
    · exact hback
  | served h he =>
    obtain hold | ⟨-,lid,o,rest,-,rfl,-⟩ := hserved h
    · exact Or.inl hold
    · rcases he with ⟨-,he⟩ | ⟨-,he⟩ <;> cases he
  | revoke st h hst =>
    obtain hold | ⟨⟨rfl,rfl⟩,lid,o,rest,hcalls,hf,hfree⟩ := hserved h
    · exact Or.inl hold
    · cases hf
      refine Or.inr ⟨rfl, ?_⟩
      simp [Sys.findsFree, hcalls, hfree]
  | revoked h =>
    obtain hold | ⟨-,lid,o,rest,-,hf,-⟩ := hserved h
    · exact Or.inl hold
    · cases hf
  | retry st hthread _ _ =>
    rw [hthread] at hback
    exact Or.inl hback
  | disconnect hthread _ =>
    rw [hthread] at hback
    exact Or.inl hback

theorem handlers_step (h : StepEffect s s' e) :
    s'.handlers.length ≤ s.handlers.length + if s.findsFree e then 1 else 0 := by
  have hbefore : ∀ q ∈ s'.handlers,
      q ∈ s.handlers ∨ e = .revoke q.1 q.2 ∧ s.findsFree e = true := by
    intro q hq
    have := givingBack_before h (mem_handlers.mp hq)
    exact this.imp_left mem_handlers.mpr
  split_ifs with hfree
  · cases e with
    | revoke B T =>
      have hsub : s'.handlers ⊆ (B, T) :: s.handlers := by
        intro q hq
        obtain hold | ⟨he,-⟩ := hbefore q hq
        · exact List.mem_cons_of_mem _ hold
        · cases he
          exact List.mem_cons_self
      exact (nodup_handlers s').length_le_of_subset hsub
    | _ => cases hfree
  · apply (nodup_handlers s').length_le_of_subset
    intro q hq
    exact (hbefore q hq).resolve_right (fun h => hfree h.2)

/-- What holds of the pool in every run. -/
structure Pool.Orderly (p : Pool) : Prop where
  bottomed : ∀ A T, Bottomed (p.sys.thread A T).calls
  revoking : ∀ q ∈ p.blocked, p.sys.revoking q = true
  nodup : p.blocked.Nodup
  workers : p.taken.length + p.blocked.length ≤ poolSize

/-- A step of the pool is one of the system, or leaves it alone. -/
theorem pool_step_cases (h : p.step pe = some p') :
    (∃ e qs s', p.sys.step e = some s' ∧ p' = p.reach qs s' ∧
      (pe = .step e ∧ e.handled = false ∧ qs = [] ∨
        ∃ j, pe = .run j ∧ j ∈ p.taken ∧ e = j.event ∧ qs = j.requests)) ∨
    p'.sys = p.sys ∧ p'.blocked = p.blocked ∧
      ((∃ j, pe = .arrive j ∧ p'.taken = p.taken ∧ p'.jobq = p.jobq ++ [j]) ∨
        ∃ j, pe = .take ∧ p'.taken = j :: p.taken ∧ p.jobq = j :: p'.jobq ∧
          p.taken.length + p.blocked.length < poolSize) := by
  cases pe with
  | step e =>
    simp only [Pool.step] at h
    split_ifs at h with hc
    obtain ⟨s',hs',rfl⟩ := Option.map_eq_some_iff.mp h
    rw [Bool.or_eq_true, not_or, Bool.not_eq_true] at hc
    exact Or.inl ⟨e, [], s', hs', rfl, Or.inl ⟨rfl, hc.1, rfl⟩⟩
  | arrive j =>
    simp only [Pool.step] at h
    split_ifs at h
    cases h
    exact Or.inr ⟨rfl, rfl, Or.inl ⟨j, rfl, rfl, rfl⟩⟩
  | take =>
    simp only [Pool.step] at h
    split at h
    · cases h
    · rename_i j jobq hjobq
      split_ifs at h with hlt
      cases h
      exact Or.inr ⟨rfl, rfl, Or.inr ⟨j, rfl, rfl, hjobq, hlt⟩⟩
  | run j =>
    simp only [Pool.step] at h
    split_ifs at h with hj
    obtain ⟨s',hs',rfl⟩ := Option.map_eq_some_iff.mp h
    exact Or.inl ⟨j.event, j.requests, s', hs', rfl, Or.inr ⟨j, rfl, hj, rfl, rfl⟩⟩

/-- A request that is only now served was not in `send_revoke`. -/
theorem requests_fresh {j : Job} (h : s.step j.event = some s') :
    ∀ q ∈ j.requests, s.revoking q = false := by
  intro q hq
  cases j with
  | request A T =>
    obtain rfl := List.mem_singleton.mp hq
    have hserve : s.serve A T = some s' := of_server_up h
    unfold Sys.serve at hserve
    unfold Sys.revoking
    split at hserve
    · rename_i hcalls
      simp [hcalls]
    · rename_i hcalls
      simp [hcalls]
    · cases hserve
  | release _ _ | disconnect _ => cases hq

/-- A handler that has sent a revoke has left the list of those to be started. -/
theorem workers_reach {j : Job} (hj : j ∈ p.taken)
    (hlen : p.taken.length + p.blocked.length ≤ poolSize) (s : Sys) :
    (p.taken.filter s.sent).length + ((j.requests ++ p.blocked).filter s.revoking).length ≤
      poolSize := by
  have htaken := List.length_filter_le s.sent p.taken
  have hblocked := List.length_filter_le s.revoking p.blocked
  rw [List.filter_append, List.length_append]
  cases j with
  | request A T =>
    by_cases hr : s.revoking (A, T) = true
    · have hsent : ¬ s.sent (.request A T) = true := by
        unfold Sys.revoking at hr
        split at hr
        · rename_i hcalls
          simp [Sys.sent, hcalls]
        · cases hr
      have hlt := List.length_filter_lt_length_iff_exists.mpr ⟨_, hj, hsent⟩
      have hone := List.length_filter_le s.revoking (Job.requests (.request A T))
      change _ ≤ 1 at hone
      omega
    · have hnil : (Job.requests (.request A T)).filter s.revoking = [] := by
        simp [Job.requests, hr]
      rw [hnil, List.length_nil]
      omega
  | release _ _ | disconnect _ =>
    simp only [Job.requests, List.filter_nil, List.length_nil]
    omega

theorem orderly_step (ho : p.Orderly) (h : p.step pe = some p') : p'.Orderly := by
  obtain ⟨e,qs,s',hstep,rfl,hpe⟩ | ⟨hsys,hblocked,htaken⟩ := pool_step_cases h
  · refine ⟨(step_effect ho.bottomed hstep).bottomed ho.bottomed, ?_, ?_, ?_⟩
    · intro q hq
      exact (List.mem_filter.mp hq).2
    · apply List.Pairwise.filter
      obtain ⟨-,-,rfl⟩ | ⟨j,-,-,rfl,rfl⟩ := hpe
      · exact ho.nodup
      · have hfresh : ∀ q ∈ j.requests, q ∉ p.blocked := by
          intro q hq hmem
          have := requests_fresh hstep q hq
          rw [ho.revoking q hmem] at this
          cases this
        apply List.nodup_append.mpr
        refine ⟨?_, ho.nodup, ?_⟩
        · cases j <;> simp [Job.requests]
        · rintro q hq q' hq' rfl
          exact hfresh q hq hq'
    · obtain ⟨-,-,rfl⟩ | ⟨j,-,hj,-,rfl⟩ := hpe
      · have h1 := List.length_filter_le s'.sent p.taken
        have h2 := List.length_filter_le s'.revoking p.blocked
        exact Nat.le_trans (Nat.add_le_add h1 h2) ho.workers
      · exact workers_reach hj ho.workers s'
  · refine ⟨?_, ?_, ?_, ?_⟩
    · rw [hsys]
      exact ho.bottomed
    · rw [hsys, hblocked]
      exact ho.revoking
    · rw [hblocked]
      exact ho.nodup
    · rw [hblocked]
      have hlen := ho.workers
      obtain ⟨j,-,htaken,-⟩ | ⟨j,-,htaken,-,hlt⟩ := htaken
      · rw [htaken]
        exact hlen
      · rw [htaken, List.length_cons]
        omega

theorem orderly_init : Pool.Orderly {} := by
  refine ⟨bottomed_init, ?_, List.nodup_nil, ?_⟩
  · intro q hq
    cases hq
  · decide

/-- Six handlers never wait at once. -/
theorem handlers_spared (ho : p.Orderly) (hs : p.spares pe = true)
    (hlen : p.sys.handlers.length < poolSize) (h : p.step pe = some p') :
    p'.sys.handlers.length < poolSize := by
  obtain ⟨e,qs,s',hstep,rfl,hpe⟩ | ⟨hsys,-,-⟩ := pool_step_cases h
  · have hle := handlers_step (step_effect ho.bottomed hstep)
    change s'.handlers.length < poolSize
    by_cases hfree : p.sys.findsFree e = true
    · obtain ⟨rfl,-⟩ | ⟨j,-,-,rfl,-⟩ := hpe
      · simp only [Pool.spares, hfree, Bool.not_true, Bool.false_or, decide_eq_true_eq] at hs
        rw [if_pos hfree] at hle
        omega
      · cases j <;> cases hfree
    · rw [if_neg hfree] at hle
      omega
  · rw [hsys]
    exact hlen

theorem pool_not_starved {es : List PoolEvent}
    (hs : TraceSystem.Meets Pool.step (fun p pe => p.spares pe = true) {} es)
    (hrun : TraceSystem.run Pool.step {} es = some p) : ¬ p.Starved := by
  have main : p.Orderly ∧ p.sys.handlers.length < poolSize := by
    refine hs.invariant (I := fun p => p.Orderly ∧ p.sys.handlers.length < poolSize) ?_ ?_ hrun
    · intro r pe r' hr hspares hstep
      exact ⟨orderly_step hr.1 hstep, handlers_spared hr.1 hspares hr.2 hstep⟩
    · exact ⟨orderly_init, by decide⟩
  rintro ⟨hlen,hall⟩
  have hsub : p.blocked ⊆ p.sys.handlers := fun q hq => mem_handlers.mpr (hall q hq).1
  have hle := main.1.nodup.length_le_of_subset hsub
  have hlt := main.2
  omega

end

/-! A starved pool stays starved. -/

section
variable {s s' : Sys} {e : Event} {p p' : Pool} {pe : PoolEvent} {B T lid o : ℕ} {rest : List Call}

/-- A thread whose request is in the server's hands makes no move. -/
theorem move_revoking {c : Client} {ph : Phase} (t : Table) (now : UInt32) (m : Move)
    (hcalls : (c.thread T).calls = .acquire lid (.revoking o ph) :: rest) :
    c.move t now T m = none := by
  have hidle : (c.thread T).idle = false := by simp [Thread.idle, hcalls]
  cases m with
  | turn a b => simp [Client.move, Client.turn, hcalls]
  | wake => simp [Client.move, Client.wake, hcalls]
  | loadAttr => simp [Client.move, Client.loadAttr, hcalls]
  | callAcquire l | reconnect => simp [Client.move, hidle]
  | unlinkRemove l => simp [Client.move, hcalls]
  | callRelease l unlink =>
    simp only [Client.move, hcalls]
    split <;> simp
  | access l op =>
    simp only [Client.move, Client.access, hidle]
    split <;> simp
  | put l buf =>
    simp only [Client.move, hidle]
    split <;> simp

/-- Only the server's handler of its release RPC lets a revoke handler go on. -/
theorem givingBack_stays (hb : ∀ A T, Bottomed (s.thread A T).calls) (h : s.step e = some s')
    (hback : (s.thread B T).givingBack = true) (he : e ≠ .serveRevoked B T) :
    s'.thread B T = s.thread B T := by
  obtain ⟨lid,o,rest,hcalls⟩ := givingBack_iff.mp hback
  have hserved : ∀ {C U f st}, Served s s' C U f st →
      (C = B ∧ U = T → f = .acquire lid (.revoking o .releasing) → False) →
      s'.thread B T = s.thread B T := by
    intro C U f st hs hno
    obtain ⟨f',rest',hcalls',-,-,hrep⟩ := hs.stack
    rw [hrep B T]
    split_ifs with hC
    · obtain ⟨rfl,rfl⟩ := hC
      cases hcalls.symm.trans hcalls'
      exact (hno ⟨rfl, rfl⟩ rfl).elim
    · rfl
  have heff := step_effect hb h
  cases heff with
  | stays hthread _ _ => exact hthread B T
  | @client A U m c' hmoved hclient =>
    have hB := hclient B
    unfold Sys.thread
    rw [hB]
    split_ifs with hA
    · subst hA
      apply hmoved.others
      rintro rfl
      simp only [Sys.step, move_revoking _ _ _ hcalls] at h
      split_ifs at h
    · rfl
  | @served _ C U f hs hf =>
    apply hserved hs
    rintro ⟨rfl,rfl⟩ rfl
    rcases hf with ⟨-,hf⟩ | ⟨rfl,-⟩
    · cases hf
    · exact he rfl
  | revoke st hs _ =>
    apply hserved hs
    rintro - hf
    cases hf
  | revoked hs =>
    apply hserved hs
    rintro - hf
    cases hf
  | retry st hthread _ _ => exact hthread B T
  | disconnect hthread _ => exact hthread B T

theorem starved_step (ho : p.Orderly) (hs : p.Starved) (h : p.step pe = some p') : p'.Starved := by
  obtain ⟨hlen,hall⟩ := hs
  have htaken : p.taken = [] := by
    apply List.length_eq_zero_iff.mp
    have := ho.workers
    omega
  obtain ⟨e,qs,s',hstep,rfl,hpe⟩ | ⟨hsys,hblocked,hjobs⟩ := pool_step_cases h
  · obtain ⟨-,hhandled,rfl⟩ | ⟨j,-,hj,-,-⟩ := hpe
    · have hstay : ∀ q ∈ p.blocked, s'.thread q.1 q.2 = p.sys.thread q.1 q.2 := by
        intro q hq
        refine givingBack_stays ho.bottomed hstep (hall q hq).1 ?_
        rintro rfl
        cases hhandled
      have hkeep : p.blocked.filter s'.revoking = p.blocked := by
        apply List.filter_eq_self.mpr
        intro q hq
        have hr := ho.revoking q hq
        unfold Sys.revoking at hr ⊢
        rw [hstay q hq]
        exact hr
      refine ⟨?_, ?_⟩
      · change (p.blocked.filter s'.revoking).length = poolSize
        rw [hkeep]
        exact hlen
      · intro q hq
        change q ∈ p.blocked.filter s'.revoking at hq
        rw [hkeep] at hq
        change (s'.thread q.1 q.2).givingBack = true ∧ _
        rw [hstay q hq]
        exact hall q hq
    · -- no worker has a job to run
      rw [htaken] at hj
      cases hj
  · obtain ⟨j,-,-,hjobq⟩ | ⟨j,-,-,-,hlt⟩ := hjobs
    · refine ⟨by rw [hblocked]; exact hlen, ?_⟩
      intro q hq
      rw [hblocked] at hq
      rw [hsys, hjobq]
      exact ⟨(hall q hq).1, List.mem_append_left _ (hall q hq).2⟩
    · omega

/-- The workers of a starved pool never get free again. -/
theorem starved_forever {es fs : List PoolEvent} (hrun : TraceSystem.run Pool.step {} es = some p)
    (hs : p.Starved) (hrun' : TraceSystem.run Pool.step p fs = some p') : p'.Starved := by
  have ho : p.Orderly := TraceSystem.run_invariant (fun _ _ _ => orderly_step) orderly_init hrun
  have main : p'.Orderly ∧ p'.Starved := by
    refine TraceSystem.run_invariant (I := fun p => p.Orderly ∧ p.Starved) ?_ ⟨ho, hs⟩ hrun'
    intro r pe r' hr hstep
    exact ⟨orderly_step hr.1 hstep, starved_step hr.1 hr.2 hstep⟩
  exact main.2

end

/-- The pool only restricts the runs of the system. -/
def PoolEvent.sysEvent : PoolEvent → Option Event
  | .step e => some e
  | .run j => some j.event
  | .arrive _ | .take => none

theorem pool_run_sys {es : List PoolEvent} {p : Pool}
    (hrun : TraceSystem.run Pool.step {} es = some p) :
    Sys.run (es.filterMap PoolEvent.sysEvent) = some p.sys := by
  refine TraceSystem.run_history
    (I := fun es p => Sys.run (es.filterMap PoolEvent.sysEvent) = some p.sys) rfl ?_ hrun
  intro fs pe r r' _ ih hstep
  rw [List.filterMap_append]
  obtain ⟨e,qs,s',hs',rfl,hpe⟩ | ⟨hsys,-,hpe⟩ := pool_step_cases hstep
  · have he : [pe].filterMap PoolEvent.sysEvent = [e] := by
      obtain ⟨rfl,-⟩ | ⟨j,rfl,-,rfl,-⟩ := hpe <;> rfl
    rw [he]
    exact TraceSystem.run_snoc.mpr ⟨r.sys, ih, hs'⟩
  · have he : [pe].filterMap PoolEvent.sysEvent = [] := by
      obtain ⟨j,rfl,-⟩ | ⟨j,rfl,-⟩ := hpe <;> rfl
    rw [he, List.append_nil, hsys]
    exact ih

/-- A request reaches the server, a worker takes it and runs its handler. -/
def dispatched (j : Job) : List PoolEvent := [.arrive j, .take, .run j]

/-- Client `0` acquires each lock and releases it, and so keeps it `FREE`; client `l` asks for lock
`l`, and a worker sends its revoke; all revokes are handled, and the release RPCs reach the
server. -/
def askedForAll (locks : List ℕ) : List PoolEvent :=
  locks.flatMap (fun l => (asks 0 0 l).map .step ++ dispatched (.request 0 0) ++
    [.step (.client 0 0 .wake)] ++ (releases 0 0 l).map .step) ++
  locks.flatMap (fun l => (asks l 0 l).map .step ++ dispatched (.request l 0)) ++
  locks.flatMap (fun l => [.step (.revoke l 0), .arrive (.release l 0)])

theorem pool_not_starved_five : ∃ p, TraceSystem.run Pool.step {} (askedForAll [1, 2, 3, 4, 5]) =
    some p ∧ p.blocked.length = 5 ∧ p.sys.handlers.length = 5 ∧ ¬ p.Starved := by
  obtain ⟨p,hrun,hlen,hhandlers⟩ := TraceSystem.reaches_of_any Pool.step
    (fun p => p.blocked.length = 5 ∧ p.sys.handlers.length = 5) {} (askedForAll [1, 2, 3, 4, 5])
    (by decide +kernel)
  exact ⟨p, hrun, hlen, hhandlers, pool_not_starved (by decide +kernel) hrun⟩

theorem pool_starved_six : ∃ p,
    TraceSystem.run Pool.step {} (askedForAll [1, 2, 3, 4, 5, 6]) = some p ∧ p.Starved ∧
      ∀ fs p', TraceSystem.run Pool.step p fs = some p' → p'.Starved := by
  obtain ⟨p,hrun,hs⟩ := TraceSystem.reaches_of_any Pool.step Pool.Starved {}
    (askedForAll [1, 2, 3, 4, 5, 6]) (by decide +kernel)
  exact ⟨p, hrun, hs, fun _ _ hrun' => starved_forever hrun hs hrun'⟩

end DisconnectedYfs.YFS
