import DisconnectedYfs.YFSLockRuns
import DisconnectedYfs.YFSStepEffects

/-! The condition variables of the lock client. The system's moves allow a sleeper to wake up at any
time; here it does so only when a signal has chosen it. There is one `wait_release_` and one
`wait_retry_` for all locks of a client, and a signal wakes one of the threads that sleep there,
whichever lock they want. -/
namespace DisconnectedYfs.YFS
open Std

/-- The system with the threads that a signal has chosen and that have not looked at their lock's
state since, as client and thread. -/
structure Waits where
  sys : Sys := {}
  woken : List (ℕ × ℕ) := []

/-- A step of the system, with the thread that its signal wakes, if it sends one; or a thread that
was woken in the loop on `wait_retry_` finds the state still `WAITING` and sleeps again. -/
inductive WaitsEvent where
  | step (e : Event) (wakes : Option ℕ)
  | recheck (A T : ℕ)
deriving DecidableEq, Repr

/-- The signal of a step: the client, the condition variable, and the lock it is about.
`disconnect(true)` sends one signal for all locks. -/
def Sys.signal (s : Sys) : Event → Option (ℕ × CondVar × Option ℕ)
  | .client A T (.turn _ _) =>
    match (s.thread A T).calls with
    | .release lid .start :: _ =>
      if s.lockState A lid = .locked then some (A, .release, some lid) else none
    | _ => none
  | .client A T .wake =>
    match (s.thread A T).calls with
    | .release lid .reply :: _ => some (A, .release, some lid)
    | _ => none
  | .revoked B T =>
    match (s.thread B T).calls with
    | .acquire lid (.revoking o .released) :: _ => some (o, .release, some lid)
    | _ => none
  | .retry lid B =>
    if !(s.client B).disconnected && (lid, B) ∉ s.dangling && s.lockState B lid = .waiting then
      some (B, .retry, some lid)
    else none
  | .disconnect A => some (A, .retry, none)
  | _ => none

namespace Waits

/-- The threads that sleep and have not been woken, with the locks they want. -/
def dozers (w : Waits) (A : ℕ) (v : CondVar) : List (ℕ × ℕ) :=
  (w.sys.client A).threads.toList.filterMap (fun p =>
    match p.2.asleep with
    | some (v', lid) => if v' = v ∧ (A, p.1) ∉ w.woken then some (p.1, lid) else none
    | none => none)

/-- A sleeper goes on only if it was woken. -/
def mayRun (w : Waits) : Event → Bool
  | .client A T .wake => (w.sys.thread A T).asleep = none || (A, T) ∈ w.woken
  | _ => true

/-- A thread that looks at its lock's state again is no longer a woken one. -/
def looks (w : Waits) : Event → Option (ℕ × ℕ)
  | .client A T (.turn _ _) =>
    match (w.sys.thread A T).calls with
    | .acquire _ .check :: _ => some (A, T)
    | _ => none
  | .client A T .wake =>
    match (w.sys.thread A T).calls with
    | .acquire _ .waitRetry :: _ => some (A, T)
    | _ => none
  | _ => none

/-- The threads woken before that are still to look after a step to `s`. A failed `VERIFY` ends the
process before the thread goes on. -/
def left (w : Waits) (e : Event) (s : Sys) : List (ℕ × ℕ) :=
  w.woken.filter (fun p =>
    some p ≠ w.looks e || s.thread p.1 p.2 = w.sys.thread p.1 p.2)

/-- What `pthread_cond_signal` does: one sleeper is woken, if there is any. -/
def wake (w : Waits) (e : Event) (wakes : Option ℕ) (s : Sys) : Option Waits :=
  match w.sys.signal e, wakes with
  | none, none => some ⟨s, w.left e s⟩
  | some (A, v, _), none => if w.dozers A v = [] then some ⟨s, w.left e s⟩ else none
  | some (A, v, _), some U =>
    if U ∈ (w.dozers A v).map Prod.fst then some ⟨s, (A, U) :: w.left e s⟩ else none
  | none, some _ => none

def step (w : Waits) : WaitsEvent → Option Waits
  | .step e wakes => if w.mayRun e then (w.sys.step e).bind (w.wake e wakes) else none
  | .recheck A T =>
    match (w.sys.thread A T).asleep with
    | some (.retry, lid) =>
      if (A, T) ∈ w.woken ∧ w.sys.lockState A lid = .waiting ∧ (w.sys.client A).lcMutex = none ∧
          (w.sys.client A).aborted = false then
        some { w with woken := w.woken.filter (· ≠ (A, T)) }
      else none
    | _ => none

end Waits

/-- A lock in this state is to be had. -/
def LState.idle (st : LState) : Bool := st = .none || st = .free

/-- The thread wants the lock and is in the wait loop of `acquire_wo`. -/
def Thread.wants (th : Thread) (lid : ℕ) : Bool :=
  match th.calls with
  | .acquire l .waiting :: _ | .acquire l .check :: _ => l = lid
  | _ => false

/-- No wake-up is lost: where a thread sleeps for a lock that is to be had, some thread that wants
it has been woken, and nobody sleeps for a retry that has come. -/
structure Waits.Attended (w : Waits) : Prop where
  release : ∀ A T lid, (w.sys.thread A T).asleep = some (.release, lid) →
    w.sys.lockState A lid = .none ∨ w.sys.lockState A lid = .free →
    ∃ U, (A, U) ∈ w.woken ∧ (w.sys.thread A U).wants lid = true
  retry : ∀ A T lid, (w.sys.thread A T).asleep = some (.retry, lid) →
    w.sys.lockState A lid = .waiting ∨ (A, T) ∈ w.woken

/-! The steps by which wake-ups are not lost. -/

/-- The client and the lock for which `acquire_wo` gives up with `DISCONNECTED`. -/
def Sys.givesUp (s : Sys) : Event → Option (ℕ × ℕ)
  | .client A T (.turn _ _) =>
    match (s.thread A T).calls with
    | .acquire lid .check :: _ =>
      if (s.client A).disconnected && s.lockState A lid = .none then some (A, lid) else none
    | _ => none
  | .client A T .wake =>
    match (s.thread A T).calls with
    | .acquire lid (.reply _) :: _ => if (s.client A).disconnected then some (A, lid) else none
    | _ => none
  | _ => none

/-- The lock whose conflict branch ends when the call above it returns. -/
def copied : List Call → List ℕ
  | .resolve lid .releaseCopy :: _ => [lid]
  | _ => []

/-- The clients and locks whose state a step sets without a look at it: an answer to an acquire or
a release is received, a conflict branch ends, or a revoke arrives or ends. -/
def Sys.settles (s : Sys) : Event → List (ℕ × ℕ)
  | .client A T _ =>
    match (s.thread A T).calls with
    | .acquire lid (.reply _) :: _ => [(A, lid)]
    | .release lid .reply :: rest => (lid :: copied rest).map (A, ·)
    | .release lid .start :: rest =>
      if s.lockState A lid = .locked then (copied rest).map (A, ·) else []
    | _ => []
  | .revoke B T =>
    match (s.thread B T).calls with
    | .acquire lid (.revoking o .sent) :: _ => [(o, lid)]
    | _ => []
  | .revoked B T =>
    match (s.thread B T).calls with
    | .acquire lid (.revoking o .released) :: _ => [(o, lid)]
    | _ => []
  | _ => []

namespace Waits

/-- Somebody sleeps for the lock, and nobody that wants it has been woken and is still to look
after the step. -/
def forlorn (w : Waits) (e : Event) (A lid : ℕ) : Bool :=
  (w.dozers A .release).any (fun d => d.2 = lid) &&
    !w.woken.any (fun p => p.1 = A && some p ≠ w.looks e && (w.sys.thread A p.2).wants lid)

/-- A signal can only wake a thread that it is meant for. -/
def apt (w : Waits) (e : Event) : Bool :=
  match w.sys.signal e with
  | some (A, .release, some lid) =>
    !w.forlorn e A lid || (w.dozers A .release).all (fun d => d.2 = lid)
  | some (A, .retry, some lid) =>
    (w.dozers A .retry).all (fun d => d.2 ≠ lid) || (w.dozers A .retry).length ≤ 1
  | some (A, .retry, none) => (w.dozers A .retry).length ≤ 1
  | _ => true

/-- Nobody is left asleep for a lock that becomes `NONE`, or stays so, without a signal. -/
def minds (w : Waits) (e : Event) : Bool :=
  match e with
  | .disconnect A => (w.dozers A .release).all (fun d =>
      w.sys.lockState A d.2 ≠ .freeRls || !w.forlorn e A d.2)
  | _ => (w.sys.givesUp e).all (fun p => !w.forlorn e p.1 p.2)

/-- Every signal can only wake a thread that it is meant for; nobody is left asleep for a lock that
`acquire_wo` gives up or that `disconnect(true)` finds in `FREE_RLS`; and no state is set behind
the back of a thread that sleeps for a retry. -/
def heeds (w : Waits) : WaitsEvent → Bool
  | .recheck _ _ => true
  | .step e _ => w.apt e && w.minds e &&
    (w.sys.settles e).all (fun p => (w.dozers p.1 .retry).all (fun d => d.2 ≠ p.2))

end Waits

section
variable {s s' : Sys} {w w' : Waits} {e : Event} {A T U lid : ℕ} {v : CondVar}
  {wakes : Option ℕ}

theorem mem_dozers : (T, lid) ∈ w.dozers A v ↔
    (w.sys.thread A T).asleep = some (v, lid) ∧ (A, T) ∉ w.woken := by
  unfold Waits.dozers Sys.thread Client.thread
  rw [List.mem_filterMap]
  constructor
  · rintro ⟨⟨T',th⟩,hmem,h⟩
    rw [ExtTreeMap.mem_toList_iff_getElem?_eq_some] at hmem
    split at h
    · rename_i hasleep
      split_ifs at h with hv
      cases h
      obtain ⟨rfl,hw⟩ := hv
      rw [hmem]
      exact ⟨hasleep, hw⟩
    · cases h
  · rintro ⟨hasleep,hw⟩
    -- a thread that has made no call does not sleep
    rcases hT : (w.sys.client A).threads[T]? with _ | th
    · rw [hT] at hasleep
      cases hasleep
    · rw [hT] at hasleep
      refine ⟨(T, th), ExtTreeMap.mem_toList_iff_getElem?_eq_some.mpr hT, ?_⟩
      change th.asleep = some (v, lid) at hasleep
      simp only [hasleep]
      rw [if_pos ⟨trivial, hw⟩]

theorem idle_iff {st : LState} : st.idle = true ↔ st = .none ∨ st = .free := by
  simp [LState.idle]

theorem not_idle {st : LState} (h : st ≠ .none ∧ st ≠ .free) : st.idle = false := by
  simp [LState.idle, h]

theorem asleep_release_iff {th : Thread} :
    th.asleep = some (.release, lid) ↔ ∃ rest, th.calls = .acquire lid .waiting :: rest := by
  unfold Thread.asleep
  constructor
  · intro h
    split at h
    · cases h
      exact ⟨_, by assumption⟩
    · cases h
    · cases h
  · rintro ⟨rest,h⟩
    rw [h]

theorem asleep_retry_iff {th : Thread} :
    th.asleep = some (.retry, lid) ↔ ∃ rest, th.calls = .acquire lid .waitRetry :: rest := by
  unfold Thread.asleep
  constructor
  · intro h
    split at h
    · cases h
    · cases h
      exact ⟨_, by assumption⟩
    · cases h
  · rintro ⟨rest,h⟩
    rw [h]

theorem wants_iff {th : Thread} : th.wants lid = true ↔
    ∃ rest, th.calls = .acquire lid .waiting :: rest ∨ th.calls = .acquire lid .check :: rest := by
  unfold Thread.wants
  constructor
  · intro h
    split at h
    · cases of_decide_eq_true h
      exact ⟨_, Or.inl (by assumption)⟩
    · cases of_decide_eq_true h
      exact ⟨_, Or.inr (by assumption)⟩
    · cases h
  · rintro ⟨rest,h | h⟩ <;> simp [h]

theorem wants_of_asleep {th : Thread} (h : th.asleep = some (.release, lid)) :
    th.wants lid = true := by
  obtain ⟨rest,hcalls⟩ := asleep_release_iff.mp h
  exact wants_iff.mpr ⟨rest, Or.inl hcalls⟩

theorem looks_ne_of_asleep (h : (w.sys.thread A T).asleep = some (.release, lid)) :
    w.looks e ≠ some (A, T) := by
  obtain ⟨rest,hcalls⟩ := asleep_release_iff.mp h
  intro hl
  unfold Waits.looks at hl
  split at hl
  · split at hl
    · rename_i hcalls'
      cases hl
      cases hcalls.symm.trans hcalls'
    · cases hl
  · split at hl
    · rename_i hcalls'
      cases hl
      cases hcalls.symm.trans hcalls'
    · cases hl
  · cases hl

/-- Only the thread itself ends its wait. -/
theorem StepEffect.wants_cases (h : StepEffect s s' e) (hw : (s.thread A U).wants lid = true) :
    s'.thread A U = s.thread A U ∨
    ∃ m, e = .client A U m ∧ LockEffect (s.client A) U (s'.client A) m := by
  rcases h.thread_cases A U with heq | ⟨f,f',rest,hcalls,-,hf,-⟩ | ⟨m,he,hmoved⟩
  · exact Or.inl heq
  · obtain ⟨rest',hw | hw⟩ := wants_iff.mp hw
    · cases hcalls.symm.trans hw
      cases hf
    · cases hcalls.symm.trans hw
      cases hf
  · exact Or.inr ⟨m, he, hmoved.effect⟩

/-- A thread in the wait loop stays there until it looks. -/
theorem wants_persists (h : StepEffect w.sys s' e) (hw : (w.sys.thread A U).wants lid = true)
    (hl : w.looks e ≠ some (A, U)) : (s'.thread A U).wants lid = true := by
  rcases h.wants_cases hw with heq | ⟨m,rfl,heff⟩
  · rw [heq]
    exact hw
  · obtain ⟨rest,hcalls | hcalls⟩ := wants_iff.mp hw
    · cases heff with
      | stays _ _ hold _ => exact absurd (asleep_release_iff.mpr ⟨rest, hcalls⟩) (hold lid)
      | rises _ hcalls' hnew =>
        cases hcalls.symm.trans hcalls'
        exact wants_iff.mpr ⟨rest, Or.inr hnew⟩
      | sleeps _ hcalls' _ _ | givesUp _ hcalls' _ _ | takes _ _ hcalls' _ _ _
      | replied _ _ hcalls' _ _ | refused _ hcalls' _ _ | released _ hcalls' _ _ =>
        cases hcalls.symm.trans hcalls'
    · cases heff with
      | stays _ hcheck _ _ => exact absurd hcalls (hcheck lid rest)
      | sleeps | givesUp | takes => exact absurd (by simp [Waits.looks, hcalls]) hl
      | rises _ hcalls' _ | replied _ _ hcalls' _ _ | refused _ hcalls' _ _
      | released _ hcalls' _ _ =>
        cases hcalls.symm.trans hcalls'

/-- A thread that looks takes the lock, gives up, or finds that it is not to be had. -/
theorem wants_looks (h : StepEffect w.sys s' e) (hw : (w.sys.thread A U).wants lid = true)
    (hl : w.looks e = some (A, U)) :
    s'.thread A U = w.sys.thread A U ∨ w.sys.givesUp e = some (A, lid) ∨
    (w.sys.lockState A lid).idle = false ∨
    (s'.lockState A lid).idle = false := by
  rcases h.wants_cases hw with heq | ⟨m,rfl,heff⟩
  · exact Or.inl heq
  · right
    obtain ⟨rest,hcalls | hcalls⟩ := wants_iff.mp hw
    · cases m <;> simp [Waits.looks, hcalls] at hl
    · cases heff with
      | stays _ hcheck _ _ => exact absurd hcalls (hcheck lid rest)
      | sleeps _ hcalls' hs _ =>
        cases hcalls.symm.trans hcalls'
        exact Or.inr (Or.inl (not_idle hs))
      | givesUp _ hcalls' hs _ =>
        cases hcalls.symm.trans hcalls'
        refine Or.inl ?_
        simp only [Sys.givesUp, hcalls]
        rw [if_pos]
        simp [Sys.lockState, hs]
      | takes st hlock hcalls' _ hs _ =>
        cases hcalls.symm.trans hcalls'
        refine Or.inr (Or.inr ?_)
        have hst := hlock lid
        rw [if_pos rfl] at hst
        unfold Sys.lockState
        rw [hst]
        rcases hs with ⟨rfl,-⟩ | rfl <;> rfl
      | rises _ hcalls' _ | replied _ _ hcalls' _ _ | refused _ hcalls' _ _
      | released _ hcalls' _ _ =>
        cases hcalls.symm.trans hcalls'

/-- Who falls asleep finds its lock busy, or makes it `WAITING`. -/
theorem asleep_before (h : StepEffect s s' e) (ha : (s'.thread A T).asleep = some (v, lid)) :
    s'.thread A T = s.thread A T ∨
    v = .release ∧ (s'.lockState A lid).idle = false ∨
    v = .retry ∧ s'.lockState A lid = .waiting := by
  rcases h.thread_cases A T with heq | ⟨-,f,rest,-,hcalls,-,hf⟩ | ⟨m,rfl,hmoved⟩
  · exact Or.inl heq
  · unfold Thread.asleep at ha
    rw [hcalls] at ha
    split at ha
    · rename_i heq
      cases heq
      cases hf
    · rename_i heq
      cases heq
      cases hf
    · cases ha
  · right
    change ((s'.client A).thread T).asleep = _ at ha
    cases hmoved.effect with
    | stays _ _ _ hnew | givesUp _ _ _ hnew | takes _ _ _ _ _ hnew | replied _ _ _ _ hnew
    | released _ _ _ hnew =>
      rw [awake_of_parked hnew] at ha
      cases ha
    | rises _ _ hnew =>
      simp [Thread.asleep, hnew] at ha
    | sleeps hlock _ hs hnew =>
      simp only [Thread.asleep, hnew, Option.some.injEq, Prod.mk.injEq] at ha
      obtain ⟨rfl,rfl⟩ := ha
      refine Or.inl ⟨rfl, ?_⟩
      unfold Sys.lockState
      rw [hlock]
      exact not_idle hs
    | refused hlock _ _ hnew =>
      simp only [Thread.asleep, hnew, Option.some.injEq, Prod.mk.injEq] at ha
      obtain ⟨rfl,rfl⟩ := ha
      refine Or.inr ⟨rfl, ?_⟩
      unfold Sys.lockState
      rw [hlock, if_pos rfl]

/-- A thread that is there to be woken for the lock, if one sleeps for it that was not forgotten. -/
theorem woken_wants (hf : w.forlorn e A lid = false)
    (ha : (w.sys.thread A T).asleep = some (.release, lid)) :
    ∃ U, (A, U) ∈ w.woken ∧ w.looks e ≠ some (A, U) ∧ (w.sys.thread A U).wants lid = true := by
  by_cases hT : (A, T) ∈ w.woken
  · exact ⟨T, hT, looks_ne_of_asleep ha, wants_of_asleep ha⟩
  · have hany : (w.dozers A .release).any (fun d => d.2 = lid) = true :=
      List.any_eq_true.mpr ⟨(T, lid), mem_dozers.mpr ⟨ha, hT⟩, by simp⟩
    unfold Waits.forlorn at hf
    rw [hany, Bool.true_and, Bool.not_eq_false'] at hf
    obtain ⟨⟨B,U⟩,hU,hp⟩ := List.any_eq_true.mp hf
    simp only [Bool.and_eq_true, decide_eq_true_eq] at hp
    obtain ⟨⟨rfl,hl⟩,hwants⟩ := hp
    exact ⟨U, hU, fun h => hl h.symm, hwants⟩

/-- How the state of a lock changes: with a signal on `wait_release_`; by an answer or a revoke;
when a thread takes it or begins to wait for it; with a signal on `wait_retry_`; or when the client
goes offline. -/
theorem StepEffect.lock_cases (h : StepEffect s s' e) (A lid : ℕ) :
    s'.lockState A lid = s.lockState A lid ∨
    s.signal e = some (A, .release, some lid) ∧
      (s.lockState A lid = .locked ∨ (A, lid) ∈ s.settles e) ∨
    (A, lid) ∈ s.settles e ∧ (s.givesUp e = some (A, lid) ∨ (s'.lockState A lid).idle = false) ∨
    ((s.lockState A lid).idle = true ∨ s'.lockState A lid = .waiting) ∧
      (s'.lockState A lid).idle = false ∨
    s.signal e = some (A, .retry, some lid) ∧ s'.lockState A lid = .acquiring ∨
    e = .disconnect A ∧ s'.lockState A lid = (s.lockState A lid).offline := by
  cases h with
  | stays _ hlock _ => exact Or.inl (hlock A lid)
  | @client B T m c' hmoved hclient =>
    by_cases hB : B = A
    · subst hB
      have hc : s'.client B = c' := by rw [hclient, if_pos rfl]
      have hnew : s'.lockState B lid = (c'.lock lid).state := by rw [Sys.lockState, hc]
      rw [hnew]
      cases hmoved.effect with
      | stays hlock | rises hlock | sleeps hlock | givesUp hlock => exact Or.inl (hlock lid)
      | takes st hlock _ hfree hs =>
        rw [hlock]
        split_ifs with hl
        · subst hl
          refine Or.inr (Or.inr (Or.inr (Or.inl ⟨Or.inl ?_, ?_⟩)))
          · exact idle_iff.mpr hfree
          · rcases hs with ⟨rfl,-⟩ | rfl <;> rfl
        · exact Or.inl rfl
      | replied st hlock hcalls hs =>
        have hcalls : (s.thread B T).calls = _ := hcalls
        rw [hlock]
        split_ifs with hl
        · subst hl
          have hsettles : (B, lid) ∈ s.settles (.client B T .wake) := by
            simp [Sys.settles, hcalls]
          rcases hs with ⟨-,hoff⟩ | rfl | rfl | ⟨rfl,-⟩
          · refine Or.inr (Or.inr (Or.inl ⟨hsettles, Or.inl ?_⟩))
            simp [Sys.givesUp, hcalls, hoff]
          · exact Or.inr (Or.inr (Or.inl ⟨hsettles, Or.inr rfl⟩))
          · exact Or.inl rfl
          · exact Or.inr (Or.inr (Or.inl ⟨hsettles, Or.inr rfl⟩))
        · exact Or.inl rfl
      | refused hlock =>
        rw [hlock]
        split_ifs with hl
        · exact Or.inr (Or.inr (Or.inr (Or.inl ⟨Or.inr rfl, rfl⟩)))
        · exact Or.inl rfl
      | released hlock hcalls hs =>
        have hcalls : (s.thread B T).calls = _ := hcalls
        rcases hlock lid with ⟨-,heq⟩ | ⟨rfl,-⟩ | ⟨hst,r,rfl⟩
        · exact Or.inl heq
        · refine Or.inr (Or.inl ?_)
          rcases hs with ⟨rfl,hst,a,b,rfl⟩ | ⟨rfl,rfl⟩
          · simp only [Sys.signal, hcalls]
            exact ⟨if_pos hst, Or.inl hst⟩
          · exact ⟨by simp [Sys.signal, hcalls], Or.inr (by simp [Sys.settles, hcalls])⟩
        · refine Or.inr (Or.inr (Or.inl ⟨?_, Or.inr (by rw [hst]; rfl)⟩))
          rcases hs with ⟨rfl,hst',-⟩ | ⟨rfl,rfl⟩
          · change s.lockState B _ = .locked at hst'
            simp [Sys.settles, hcalls, copied, hst']
          · simp [Sys.settles, hcalls, copied]
    · have hc : s'.client A = s.client A := by rw [hclient, if_neg hB]
      exact Or.inl (by rw [Sys.lockState, hc, Sys.lockState])
  | served h _ => exact Or.inl (h.lock A lid)
  | @revoke B T l o st h hst =>
    obtain ⟨f',rest,hcalls,-⟩ := h.stack
    rw [h.lock]
    split_ifs with hl
    · obtain ⟨rfl,rfl⟩ := hl
      have hsettles : (A, lid) ∈ s.settles (.revoke B T) := by simp [Sys.settles, hcalls]
      rcases hst with ⟨rfl,-⟩ | ⟨rfl,-⟩ | rfl
      · exact Or.inr (Or.inr (Or.inl ⟨hsettles, Or.inr rfl⟩))
      · exact Or.inr (Or.inr (Or.inl ⟨hsettles, Or.inr rfl⟩))
      · exact Or.inl rfl
    · exact Or.inl rfl
  | @revoked B T l o h =>
    obtain ⟨f',rest,hcalls,-⟩ := h.stack
    rw [h.lock]
    split_ifs with hl
    · obtain ⟨rfl,rfl⟩ := hl
      refine Or.inr (Or.inl ⟨by simp [Sys.signal, hcalls], Or.inr (by simp [Sys.settles, hcalls])⟩)
    · exact Or.inl rfl
  | retry st _ hlock hst =>
    rw [hlock]
    split_ifs with hl
    · obtain ⟨rfl,rfl⟩ := hl
      rcases hst with ⟨-,rfl⟩ | ⟨hst,rfl,hon⟩ | ⟨-,rfl⟩
      · exact Or.inr (Or.inr (Or.inr (Or.inl ⟨Or.inr rfl, rfl⟩)))
      · refine Or.inr (Or.inr (Or.inr (Or.inr (Or.inl ⟨?_, rfl⟩))))
        simp [Sys.signal, hon.1, hon.2, hst]
      · exact Or.inl rfl
    · exact Or.inl rfl
  | @disconnect B _ hlock =>
    rw [hlock]
    split_ifs with hl
    · subst hl
      exact Or.inr (Or.inr (Or.inr (Or.inr (Or.inr ⟨rfl, rfl⟩))))
    · exact Or.inl rfl

theorem offline_idle {st : LState} (h : st.idle = false) (h' : st.offline.idle = true) :
    st = .freeRls := by
  cases st with
  | freeRls => rfl
  | none | free => cases h
  | acquiring | waiting | locked | releasing => cases h'

/-- A lock comes to be had with a signal on `wait_release_`, or without one. -/
theorem StepEffect.frees (h : StepEffect s s' e) (hold : (s.lockState A lid).idle = false)
    (hnew : (s'.lockState A lid).idle = true) :
    s.signal e = some (A, .release, some lid) ∨ s.givesUp e = some (A, lid) ∨
    e = .disconnect A ∧ s.lockState A lid = .freeRls := by
  rcases h.lock_cases A lid with heq | ⟨hsig,-⟩ | ⟨-,hup | hbusy⟩ | ⟨-,hbusy⟩ | ⟨-,hst⟩ | ⟨rfl,hst⟩
  · rw [heq, hold] at hnew
    cases hnew
  · exact Or.inl hsig
  · exact Or.inr (Or.inl hup)
  · rw [hbusy] at hnew
    cases hnew
  · rw [hbusy] at hnew
    cases hnew
  · rw [hst] at hnew
    cases hnew
  · refine Or.inr (Or.inr ⟨rfl, ?_⟩)
    rw [hst] at hnew
    exact offline_idle hold hnew

/-- A lock leaves `WAITING` with a signal on `wait_retry_`, or behind the back of who sleeps
there. -/
theorem StepEffect.leaves_waiting (h : StepEffect s s' e) (hold : s.lockState A lid = .waiting)
    (hnew : s'.lockState A lid ≠ .waiting) :
    (A, lid) ∈ s.settles e ∨ s.signal e = some (A, .retry, some lid) ∨
    s.signal e = some (A, .retry, none) := by
  rcases h.lock_cases A lid with heq | ⟨-,hst | hset⟩ | ⟨hset,-⟩ | ⟨hidle | hst,-⟩ | ⟨hsig,-⟩ |
    ⟨rfl,-⟩
  · exact absurd (heq.trans hold) hnew
  · cases hold.symm.trans hst
  · exact Or.inl hset
  · exact Or.inl hset
  · rw [hold] at hidle
    cases hidle
  · exact absurd hst hnew
  · exact Or.inr (Or.inl hsig)
  · exact Or.inr (Or.inr rfl)

/-- What the signal of a step does. -/
theorem wake_cases {wakes : Option ℕ} (h : w.wake e wakes s = some w') :
    w'.sys = s ∧ (∀ p ∈ w.left e s, p ∈ w'.woken) ∧
    ∀ A v x, w.sys.signal e = some (A, v, x) → w.dozers A v = [] ∨
      ∃ U l, (U, l) ∈ w.dozers A v ∧ (A, U) ∈ w'.woken := by
  unfold Waits.wake at h
  split at h
  · rename_i hsig
    cases h
    refine ⟨rfl, fun p hp => hp, fun A v x hx => ?_⟩
    rw [hsig] at hx
    cases hx
  · rename_i hsig
    split_ifs at h with hnone
    cases h
    refine ⟨rfl, fun p hp => hp, fun A v x hx => ?_⟩
    rw [hsig] at hx
    cases hx
    exact Or.inl hnone
  · rename_i U hsig
    split_ifs at h with hU
    cases h
    refine ⟨rfl, fun p hp => List.mem_cons_of_mem _ hp, fun A v x hx => ?_⟩
    rw [hsig] at hx
    cases hx
    obtain ⟨⟨U',l⟩,hmem,rfl⟩ := List.mem_map.mp hU
    exact Or.inr ⟨U', l, hmem, List.mem_cons_self⟩
  · cases h

/-- A woken thread stays one while it has not looked. -/
theorem mem_left (h : StepEffect w.sys s' e) (hU : (A, U) ∈ w.woken)
    (hw : (w.sys.thread A U).wants lid = true) (hl : w.looks e ≠ some (A, U)) :
    (A, U) ∈ w.left e s' ∧ (s'.thread A U).wants lid = true := by
  refine ⟨List.mem_filter.mpr ⟨hU, ?_⟩, wants_persists h hw hl⟩
  rw [decide_eq_true (Ne.symm hl), Bool.true_or]

/-- The sleepers on `wait_release_` after a step. -/
theorem release_step (h : StepEffect w.sys s' e) (ha : w.Attended) (hapt : w.apt e = true)
    (hminds : w.minds e = true) (hw : w.wake e wakes s' = some w')
    (hT : (s'.thread A T).asleep = some (.release, lid))
    (hfree : (s'.lockState A lid).idle = true) :
    ∃ U, (A, U) ∈ w'.woken ∧ (s'.thread A U).wants lid = true := by
  obtain ⟨-,hleft,hsignal⟩ := wake_cases hw
  -- nobody falls asleep over a lock that is to be had
  have hasleep : (w.sys.thread A T).asleep = some (.release, lid) := by
    rcases asleep_before h hT with heq | ⟨-,hbusy⟩ | ⟨hv,-⟩
    · rw [← heq]
      exact hT
    · rw [hbusy] at hfree
      cases hfree
    · cases hv
  have hstay (hf : w.forlorn e A lid = false) :
      ∃ U, (A, U) ∈ w'.woken ∧ (s'.thread A U).wants lid = true := by
    obtain ⟨U,hU,hl,hwants⟩ := woken_wants hf hasleep
    obtain ⟨hmem,hwants'⟩ := mem_left h hU hwants hl
    exact ⟨U, hleft _ hmem, hwants'⟩
  have hgives (hup : w.sys.givesUp e = some (A, lid)) : w.forlorn e A lid = false := by
    unfold Waits.minds at hminds
    split at hminds
    · cases hup
    · rw [hup] at hminds
      simpa using hminds
  by_cases hold : (w.sys.lockState A lid).idle = true
  · obtain ⟨U,hU,hwants⟩ := ha.release A T lid hasleep (idle_iff.mp hold)
    by_cases hl : w.looks e = some (A, U)
    · rcases wants_looks h hwants hl with heq | hup | hbusy | hbusy
      · refine ⟨U, hleft _ (List.mem_filter.mpr ⟨hU, ?_⟩), heq ▸ hwants⟩
        simp [heq]
      · exact hstay (hgives hup)
      · rw [hbusy] at hold
        cases hold
      · rw [hbusy] at hfree
        cases hfree
    · obtain ⟨hmem,hwants'⟩ := mem_left h hU hwants hl
      exact ⟨U, hleft _ hmem, hwants'⟩
  · rcases h.frees (Bool.not_eq_true _ ▸ hold) hfree with hsig | hup | ⟨rfl,hst⟩
    · by_cases hf : w.forlorn e A lid = true
      · have hall : (w.dozers A .release).all (fun d => d.2 = lid) = true := by
          simpa [Waits.apt, hsig, hf] using hapt
        have hdozes : ∃ d, d ∈ w.dozers A .release := by
          unfold Waits.forlorn at hf
          rw [Bool.and_eq_true] at hf
          obtain ⟨d,hd,-⟩ := List.any_eq_true.mp hf.1
          exact ⟨d, hd⟩
        rcases hsignal _ _ _ hsig with hnone | ⟨U,l,hU,hwoken⟩
        · obtain ⟨d,hd⟩ := hdozes
          rw [hnone] at hd
          cases hd
        · -- whoever the signal has chosen wants this lock
          have hl : l = lid := by simpa using List.all_eq_true.mp hall _ hU
          subst hl
          obtain ⟨hU',-⟩ := mem_dozers.mp hU
          exact ⟨U, hwoken, wants_persists h (wants_of_asleep hU') (looks_ne_of_asleep hU')⟩
      · exact hstay (Bool.not_eq_true _ ▸ hf)
    · exact hstay (hgives hup)
    · by_cases hwoken : (A, T) ∈ w.woken
      · obtain ⟨hmem,hwants⟩ := mem_left h hwoken (wants_of_asleep hasleep)
          (looks_ne_of_asleep hasleep)
        exact ⟨T, hleft _ hmem, hwants⟩
      · have hd := List.all_eq_true.mp hminds (T, lid) (mem_dozers.mpr ⟨hasleep, hwoken⟩)
        apply hstay
        simpa [hst] using hd

/-- The sleepers on `wait_retry_` after a step. -/
theorem retry_step (h : StepEffect w.sys s' e) (ha : w.Attended) (hapt : w.apt e = true)
    (hsettles : ∀ p ∈ w.sys.settles e, ∀ d ∈ w.dozers p.1 .retry, d.2 ≠ p.2)
    (hw : w.wake e wakes s' = some w') (hT : (s'.thread A T).asleep = some (.retry, lid)) :
    s'.lockState A lid = .waiting ∨ (A, T) ∈ w'.woken := by
  obtain ⟨-,hleft,hsignal⟩ := wake_cases hw
  rcases asleep_before h hT with heq | ⟨hv,-⟩ | ⟨-,hst⟩
  · have hasleep : (w.sys.thread A T).asleep = some (.retry, lid) := by rw [← heq]; exact hT
    by_cases hwoken : (A, T) ∈ w.woken
    · right
      apply hleft
      refine List.mem_filter.mpr ⟨hwoken, ?_⟩
      simp [heq]
    · have hdozes : (T, lid) ∈ w.dozers A .retry := mem_dozers.mpr ⟨hasleep, hwoken⟩
      have hwaiting := (ha.retry A T lid hasleep).resolve_right hwoken
      by_cases hnew : s'.lockState A lid = .waiting
      · exact Or.inl hnew
      · right
        -- a signal finds nobody but this thread
        have hone : ∀ x, w.sys.signal e = some (A, .retry, x) → (w.dozers A .retry).length ≤ 1 →
            (A, T) ∈ w'.woken := by
          intro x hsig hlen
          obtain hnone | ⟨U,l,hU,hmem⟩ := hsignal _ _ _ hsig
          · rw [hnone] at hdozes
            cases hdozes
          · obtain ⟨d,hd⟩ := List.length_eq_one_iff.mp
              (Nat.le_antisymm hlen (List.length_pos_of_mem hU))
            rw [hd, List.mem_singleton] at hU hdozes
            cases hU.trans hdozes.symm
            exact hmem
        rcases h.leaves_waiting hwaiting hnew with hset | hsig | hsig
        · exact absurd rfl (hsettles (A, lid) hset (T, lid) hdozes)
        · apply hone _ hsig
          simp only [Waits.apt, hsig, Bool.or_eq_true, List.all_eq_true, decide_eq_true_eq] at hapt
          exact hapt.resolve_left (fun hall => hall _ hdozes rfl)
        · apply hone _ hsig
          simpa [Waits.apt, hsig] using hapt
  · cases hv
  · exact Or.inl hst

/-- Beside `Attended`, `disconnect(false)` is the call that its thread began with. -/
theorem attended_step {we : WaitsEvent} (hb : ∀ A T, Bottomed (w.sys.thread A T).calls)
    (ha : w.Attended) (hh : w.heeds we = true) (h : w.step we = some w') :
    (∀ A T, Bottomed (w'.sys.thread A T).calls) ∧ w'.Attended := by
  cases we with
  | step e wakes =>
    simp only [Waits.step] at h
    split_ifs at h
    obtain ⟨s',hstep,hw⟩ := Option.bind_eq_some_iff.mp h
    have heff := step_effect hb hstep
    simp only [Waits.heeds, Bool.and_eq_true] at hh
    obtain ⟨⟨hapt,hminds⟩,hsettles⟩ := hh
    have hsys : w'.sys = s' := (wake_cases hw).1
    rw [hsys]
    refine ⟨heff.bottomed hb, ?_, ?_⟩
    · intro A T lid hT hfree
      rw [hsys] at hT hfree ⊢
      exact release_step heff ha hapt hminds hw hT (idle_iff.mpr hfree)
    · intro A T lid hT
      rw [hsys] at hT ⊢
      refine retry_step heff ha hapt ?_ hw hT
      intro p hp d hd
      have hall := List.all_eq_true.mp (List.all_eq_true.mp hsettles p hp) d hd
      exact of_decide_eq_true hall
  | recheck A T =>
    simp only [Waits.step] at h
    split at h
    · rename_i lid hasleep
      split_ifs at h with hc
      cases h
      refine ⟨hb, ?_, ?_⟩
      · intro B U l hU hfree
        obtain ⟨V,hV,hwants⟩ := ha.release B U l hU hfree
        refine ⟨V, List.mem_filter.mpr ⟨hV, ?_⟩, hwants⟩
        -- who rechecks is in the other loop
        rw [decide_eq_true_eq]
        rintro heq
        cases heq
        obtain ⟨rest,hcalls⟩ := asleep_retry_iff.mp hasleep
        obtain ⟨rest',hw | hw⟩ := wants_iff.mp hwants
        · cases hcalls.symm.trans hw
        · cases hcalls.symm.trans hw
      · intro B U l hU
        by_cases heq : (B, U) = (A, T)
        · cases heq
          cases hasleep.symm.trans hU
          exact Or.inl hc.2.1
        · obtain hst | hmem := ha.retry B U l hU
          · exact Or.inl hst
          · exact Or.inr (List.mem_filter.mpr ⟨hmem, decide_eq_true heq⟩)
    · cases h

theorem attended_init : Waits.Attended {} := by
  refine ⟨fun A T lid h => ?_, fun A T lid h => ?_⟩ <;> cases h

end

/-! What runs of `Waits` are. -/

/-- The step of the system, if the event is one. -/
def WaitsEvent.sysEvent : WaitsEvent → Option Event
  | .step e _ => some e
  | .recheck _ _ => none

/-- The condition variables only restrict the runs of the system. -/
theorem waits_run_sys {es : List WaitsEvent} {w : Waits}
    (hrun : TraceSystem.run Waits.step {} es = some w) :
    Sys.run (es.filterMap WaitsEvent.sysEvent) = some w.sys := by
  refine TraceSystem.run_history
    (I := fun es w => Sys.run (es.filterMap WaitsEvent.sysEvent) = some w.sys) rfl ?_ hrun
  intro fs we r r' _ ih hstep
  rw [List.filterMap_append]
  cases we with
  | step e wakes =>
    simp only [Waits.step] at hstep
    split_ifs at hstep
    obtain ⟨s',hs',hw⟩ := Option.bind_eq_some_iff.mp hstep
    rw [(wake_cases hw).1]
    exact TraceSystem.run_snoc.mpr ⟨r.sys, ih, hs'⟩
  | recheck A T =>
    simp only [Waits.step] at hstep
    split at hstep
    · split_ifs at hstep
      cases hstep
      change Sys.run (fs.filterMap WaitsEvent.sysEvent ++ []) = _
      rw [List.append_nil]
      exact ih
    · cases hstep

/-- Where every step heeds the sleepers, no wake-up is lost. -/
theorem no_wakeup_lost {es : List WaitsEvent} {w : Waits}
    (hh : TraceSystem.Meets Waits.step (fun w we => w.heeds we = true) {} es)
    (hrun : TraceSystem.run Waits.step {} es = some w) : w.Attended := by
  have main : (∀ A T, Bottomed (w.sys.thread A T).calls) ∧ w.Attended := by
    refine hh.invariant
      (I := fun w => (∀ A T, Bottomed (w.sys.thread A T).calls) ∧ w.Attended) ?_ ?_ hrun
    · intro r we r' hr hheeds hstep
      exact attended_step hr.1 hr.2 hheeds hstep
    · exact ⟨bottomed_init, attended_init⟩
  exact main.2

/-- Steps whose signals, if any, find nobody asleep. -/
def unheard (es : List Event) : List WaitsEvent := es.map (fun e => .step e none)

/-- A thread of the owner sleeps for the lock, and so does a thread of another client for the retry;
the lock is given back, and both are woken. -/
def bothWoken : List WaitsEvent :=
  unheard (acquires 0 0 5 ++ asks 0 2 5 ++ asks 1 0 5 ++
    [.serve 1 0, .revoke 1 0, .client 1 0 .wake] ++ releases 0 0 5 ++ [.serve 0 0]) ++
  [.step (.client 0 0 .wake) (some 2), .step (.retry 5 1) (some 0)]

theorem no_wakeup_lost_both_woken : ∃ w, TraceSystem.run Waits.step {} bothWoken = some w ∧
    (w.sys.thread 0 2).asleep = some (.release, 5) ∧ w.sys.lockState 0 5 = .none ∧
    (w.sys.thread 1 0).asleep = some (.retry, 5) ∧ w.sys.lockState 1 5 = .acquiring ∧
    w.Attended := by
  obtain ⟨w,hrun,h1,h2,h3,h4⟩ := TraceSystem.reaches_of_any Waits.step
    (fun w => (w.sys.thread 0 2).asleep = some (.release, 5) ∧ w.sys.lockState 0 5 = .none ∧
      (w.sys.thread 1 0).asleep = some (.retry, 5) ∧ w.sys.lockState 1 5 = .acquiring)
    {} bothWoken (by decide +kernel)
  exact ⟨w, hrun, h1, h2, h3, h4, no_wakeup_lost (by decide +kernel) hrun⟩

/-- The thread sleeps although its lock is to be had or its retry has come, and nobody will look. -/
def Waits.lost (w : Waits) (A T : ℕ) : Bool :=
  match (w.sys.thread A T).asleep with
  | some (.release, lid) => (w.sys.lockState A lid).idle &&
    !w.woken.any (fun p => p.1 = A && (w.sys.thread A p.2).wants lid)
  | some (.retry, lid) => w.sys.lockState A lid ≠ .waiting && (A, T) ∉ w.woken
  | none => false

/-- Two locks have sleepers, and the signal for the one wakes who wants the other. -/
def wrongSleeper : List WaitsEvent :=
  unheard (acquires 0 0 5 ++ acquires 0 1 6 ++ asks 0 2 5 ++ asks 0 3 6 ++
    [.client 0 0 (.callRelease 5 false)]) ++ [.step (.client 0 0 (.turn 0 0)) (some 3)]

/-- `disconnect(true)` takes two locks out of `WAITING` and signals once. -/
def oneSignal : List WaitsEvent :=
  unheard (acquires 1 0 5 ++ acquires 1 1 6 ++ asks 0 0 5 ++ [.serve 0 0, .revoke 0 0,
    .client 0 0 .wake] ++ asks 0 1 6 ++ [.serve 0 1, .revoke 0 1, .client 0 1 .wake]) ++
  [.step (.disconnect 0) (some 1)]

/-- The thread that asked the server gives up, and tells nobody. -/
def gaveUp : List WaitsEvent :=
  unheard (asks 0 0 5 ++ asks 0 1 5 ++ [.disconnect 0, .serve 0 0, .client 0 0 .wake])

/-- `disconnect(true)` makes `FREE_RLS` to `NONE`, and tells nobody. -/
def freeRlsGone : List WaitsEvent :=
  unheard (acquires 0 1 5 ++ releases 0 1 5 ++ asks 1 0 5 ++ [.serve 1 0, .revoke 1 0] ++
    asks 0 0 5 ++ [.disconnect 0])

/-- A revoke handler from before a disconnection ends while its lock is asked for again. -/
def lateRevoke : List WaitsEvent :=
  unheard (acquires 0 1 5 ++ releases 0 1 5 ++ asks 1 0 5 ++
    [.serve 1 0, .revoke 1 0, .serveRevoked 1 0, .disconnect 0, .client 0 1 .reconnect,
      .client 0 1 (.turn 0 0), .client 0 1 (.turn 0 0)] ++ acquires 2 0 5 ++ asks 0 0 5 ++
    [.serve 0 0, .revoke 0 0, .client 0 0 .wake, .revoked 1 0])

theorem not_attended {w : Waits} {A T : ℕ} (h : w.lost A T = true) : ¬ w.Attended := by
  intro ha
  unfold Waits.lost at h
  split at h
  · rename_i lid hasleep
    rw [Bool.and_eq_true, Bool.not_eq_true', List.any_eq_false] at h
    obtain ⟨U,hU,hwants⟩ := ha.release A T lid hasleep (idle_iff.mp h.1)
    exact h.2 (A, U) hU (by simp [hwants])
  · rename_i lid hasleep
    simp only [Bool.and_eq_true, decide_eq_true_eq] at h
    exact (ha.retry A T lid hasleep).elim h.1 h.2
  · cases h

theorem reaches_lost {es : List WaitsEvent} (A T : ℕ)
    (h : (TraceSystem.run Waits.step {} es).any (fun w => w.lost A T) = true) :
    ∃ w, TraceSystem.run Waits.step {} es = some w ∧ ¬ w.Attended := by
  obtain ⟨w,hrun,hlost⟩ := (Option.any_eq_true _ _).mp h
  exact ⟨w, hrun, not_attended hlost⟩

/-- Each of the runs loses a wake-up of client `0` with its last step. -/
theorem wakeups_lost :
    (∃ w, TraceSystem.run Waits.step {} wrongSleeper = some w ∧ ¬ w.Attended) ∧
    (∃ w, TraceSystem.run Waits.step {} oneSignal = some w ∧ ¬ w.Attended) ∧
    (∃ w, TraceSystem.run Waits.step {} gaveUp = some w ∧ ¬ w.Attended) ∧
    (∃ w, TraceSystem.run Waits.step {} freeRlsGone = some w ∧ ¬ w.Attended) ∧
    ∃ w, TraceSystem.run Waits.step {} lateRevoke = some w ∧ ¬ w.Attended := by
  refine ⟨reaches_lost 0 2 ?_, reaches_lost 0 0 ?_, reaches_lost 0 1 ?_, reaches_lost 0 0 ?_,
    reaches_lost 0 0 ?_⟩ <;> decide +kernel

end DisconnectedYfs.YFS
