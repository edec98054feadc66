import DisconnectedYfs.YFSLockRoles

/-! What a move of a thread does to the states of its client's locks and to its own stack, in the
order of the source's branches. Nothing here depends on the lock server: the moves of a client that
follows no protocol at all are covered too. -/
namespace DisconnectedYfs.YFS
open Std

/-- `wait_release_` and `wait_retry_`. -/
inductive CondVar where
  | release | retry
deriving DecidableEq, Repr

/-- The condition variable on which the thread sleeps, and the lock it wants. -/
def Thread.asleep (th : Thread) : Option (CondVar × ℕ) :=
  match th.calls with
  | .acquire lid .waiting :: _ => some (.release, lid)
  | .acquire lid .waitRetry :: _ => some (.retry, lid)
  | _ => none

/-- The thread sleeps, or the server's handler of its request waits for a revoke. -/
def Thread.parked (th : Thread) : Bool :=
  match th.calls with
  | .acquire _ .waiting :: _ | .acquire _ .waitRetry :: _ | .acquire _ (.revoking _ _) :: _ => true
  | _ => false

theorem awake_of_parked {th : Thread} (h : th.parked = false) : th.asleep = none := by
  unfold Thread.parked at h
  unfold Thread.asleep
  split
  · simp_all
  · simp_all
  · rfl

/-- Frames on top of the stack are exchanged; no loop of `disconnect(false)` is among them. -/
def Swaps (calls calls' : List Call) : Prop :=
  ∃ a b rest, calls = a ++ rest ∧ calls' = b ++ rest ∧ ∀ f ∈ a ++ b, f.reconnects = false

/-- The steps of a stack: beside `Swaps`, `disconnect(false)` begins its loop, goes on to the next
lock, or ends. -/
inductive StackStep (m : LockMap) : List Call → List Call → Prop
  | swap {calls calls'} (h : Swaps calls calls') : StackStep m calls calls'
  | begin (h : ∀ l, (m.entry l).state.busy = false) : StackStep m [] [.reconnect none]
  | next {k j rest calls'} (hj : m.nextKey k = some j)
      (h : Swaps (.reconnect (some j) :: rest) calls') : StackStep m (.reconnect k :: rest) calls'
  | done {k rest} (h : m.nextKey k = none) : StackStep m (.reconnect k :: rest) rest

/-- What a move of thread `T` does to lock states, by the place in `acquire_wo` or `release_wo` that
it starts from. -/
inductive LockEffect (c : Client) (T : ℕ) (c' : Client) : Move → Prop
  | stays {m} (hlock : ∀ l, (c'.lock l).state = (c.lock l).state)
      (hcheck : ∀ lid rest, (c.thread T).calls ≠ .acquire lid .check :: rest)
      (hold : ∀ lid, (c.thread T).asleep ≠ some (.release, lid))
      (hnew : (c'.thread T).parked = false) : LockEffect c T c' m
  | rises {lid rest} (hlock : ∀ l, (c'.lock l).state = (c.lock l).state)
      (hcalls : (c.thread T).calls = .acquire lid .waiting :: rest)
      (hnew : (c'.thread T).calls = .acquire lid .check :: rest) : LockEffect c T c' .wake
  | sleeps {lid rest a b} (hlock : ∀ l, (c'.lock l).state = (c.lock l).state)
      (hcalls : (c.thread T).calls = .acquire lid .check :: rest)
      (hs : (c.lock lid).state ≠ .none ∧ (c.lock lid).state ≠ .free)
      (hnew : (c'.thread T).calls = .acquire lid .waiting :: rest) : LockEffect c T c' (.turn a b)
  | givesUp {lid rest a b} (hlock : ∀ l, (c'.lock l).state = (c.lock l).state)
      (hcalls : (c.thread T).calls = .acquire lid .check :: rest)
      (hs : c.disconnected = true ∧ (c.lock lid).state = .none)
      (hnew : (c'.thread T).parked = false) : LockEffect c T c' (.turn a b)
  | takes {lid rest a b} (st : LState)
      (hlock : ∀ l, (c'.lock l).state = if l = lid then st else (c.lock l).state)
      (hcalls : (c.thread T).calls = .acquire lid .check :: rest)
      (hfree : (c.lock lid).state = .none ∨ (c.lock lid).state = .free)
      (hs : st = .acquiring ∧ ((c.lock lid).state = .none ∨ (c.lock lid).stale = true) ∨
        st = .locked)
      (hnew : (c'.thread T).parked = false) : LockEffect c T c' (.turn a b)
  | replied {lid rest r} (st : LState)
      (hlock : ∀ l, (c'.lock l).state = if l = lid then st else (c.lock l).state)
      (hcalls : (c.thread T).calls = .acquire lid (.reply r) :: rest)
      (hs : st = .none ∧ c.disconnected = true ∨ st = .locked ∨ st = (c.lock lid).state ∨
        st = .acquiring ∧ (c.lock lid).state = .waiting)
      (hnew : (c'.thread T).parked = false) : LockEffect c T c' .wake
  | refused {lid rest}
      (hlock : ∀ l, (c'.lock l).state = if l = lid then .waiting else (c.lock l).state)
      (hcalls : (c.thread T).calls = .acquire lid (.reply .retry) :: rest)
      (hs : (c.lock lid).state = .acquiring)
      (hnew : (c'.thread T).calls = .acquire lid .waitRetry :: rest) : LockEffect c T c' .wake
  -- the signal on `wait_release_`; the conflict branch may end with it, and then has its lock
  | released {lid pc rest m}
      (hlock : ∀ l, l ≠ lid ∧ (c'.lock l).state = (c.lock l).state ∨
        l = lid ∧ ((c'.lock l).state = .none ∨ (c'.lock l).state = .free) ∨
        (c'.lock l).state = .locked ∧ ∃ r, rest = .resolve l .releaseCopy :: r)
      (hcalls : (c.thread T).calls = .release lid pc :: rest)
      (hs : pc = .start ∧ (c.lock lid).state = .locked ∧ (∃ a b, m = .turn a b) ∨
        pc = .reply ∧ m = .wake)
      (hnew : (c'.thread T).parked = false) : LockEffect c T c' m

/-- A loop of `disconnect(false)` is the call that its thread began with. -/
def Bottomed (calls : List Call) : Prop :=
  ∀ pre k rest, calls = pre ++ .reconnect k :: rest → rest = []

structure Moved (c : Client) (T : ℕ) (m : Move) (c' : Client) : Prop where
  others : ∀ U, U ≠ T → c'.thread U = c.thread U
  stack : StackStep c.lockStatus (c.thread T).calls (c'.thread T).calls
  effect : LockEffect c T c' m

theorem Swaps.refl (calls : List Call) : Swaps calls calls :=
  ⟨[], [], calls, rfl, rfl, by simp⟩

theorem Swaps.pop {calls calls' : List Call} {f : Call} (h : Swaps calls calls')
    (hf : f.reconnects = false) : Swaps (f :: calls) calls' := by
  obtain ⟨a,b,rest,rfl,rfl,hab⟩ := h
  refine ⟨f :: a, b, rest, rfl, rfl, ?_⟩
  intro g hg
  rcases List.mem_cons.mp hg with rfl | hg
  · exact hf
  · exact hab g hg

theorem Swaps.push {calls calls' : List Call} {f : Call} (h : Swaps calls calls')
    (hf : f.reconnects = false) : Swaps calls (f :: calls') := by
  obtain ⟨a,b,rest,rfl,rfl,hab⟩ := h
  refine ⟨a, f :: b, rest, rfl, rfl, ?_⟩
  intro g hg
  rcases List.mem_append.mp hg with hg | hg
  · exact hab g (List.mem_append_left _ hg)
  · rcases List.mem_cons.mp hg with rfl | hg
    · exact hf
    · exact hab g (List.mem_append_right _ hg)

/-- The top frame is replaced. -/
theorem Swaps.top {f f' : Call} {rest : List Call} (hf : f.reconnects = false)
    (hf' : f'.reconnects = false) : Swaps (f :: rest) (f' :: rest) :=
  ((Swaps.refl rest).push hf').pop hf

section Functions
variable {c c' : Client} {t t' : Table} {now : UInt32} {T lid l a b : ℕ} {r : Status}
  {rest : List Call} {m : Move}

/-- A call has returned to the frames `rest`. -/
structure Returned (c : Client) (T : ℕ) (rest : List Call) (c' : Client) : Prop where
  lock : ∀ l, c'.lock l = c.lock l
  others : ∀ U, U ≠ T → c'.thread U = c.thread U
  swaps : Swaps rest (c'.thread T).calls
  awake : (c'.thread T).parked = false

theorem acquireDone_returned (h : c.acquireDone t T lid r rest = .done c' t') :
    Returned c T rest c' := by
  unfold Client.acquireDone at h
  split at h
  · cases h
    refine ⟨fun _ => rfl, fun U hU => ?_, ?_, ?_⟩
    · simp [Ne.symm hU]
    · simp only [thread_setLcMutex, thread_setThread, if_pos]
      exact Swaps.refl []
    · simp [Thread.parked]
  · cases h
    refine ⟨fun _ => rfl, fun U hU => ?_, ?_, ?_⟩
    · simp [Ne.symm hU]
    · simp only [thread_setCalls, if_pos]
      exact Swaps.top rfl rfl
    · simp [Thread.parked]
  · split_ifs at h
    · cases h
      refine ⟨fun _ => rfl, fun U hU => ?_, ?_, ?_⟩
      · simp [Ne.symm hU]
      · simp only [thread_setCalls, if_pos]
        exact Swaps.top rfl rfl
      · simp [Thread.parked]
  · split_ifs at h
    · cases h
      refine ⟨fun _ => rfl, fun U hU => ?_, ?_, ?_⟩
      · simp [Ne.symm hU]
      · simp only [thread_setCalls, if_pos]
        exact (Swaps.refl _).push rfl
      · simp [Thread.parked]
  · cases h

/-- `release_wo` returns, and the conflict branch may end with it. -/
theorem releaseDone_returned (h : c.releaseDone t T rest = .done c' t') :
    (∀ l, c'.lock l = c.lock l ∨
      (c'.lock l).state = .locked ∧ ∃ r, rest = .resolve l .releaseCopy :: r) ∧
    (∀ U, U ≠ T → c'.thread U = c.thread U) ∧ Swaps rest (c'.thread T).calls ∧
    (c'.thread T).parked = false := by
  unfold Client.releaseDone at h
  split at h
  · cases h
    refine ⟨fun _ => Or.inl rfl, fun U hU => ?_, ?_, ?_⟩
    · simp [Ne.symm hU]
    · simp only [thread_setLcMutex, thread_setCalls, if_pos]
      exact Swaps.refl []
    · simp [Thread.parked]
  · cases h
    refine ⟨fun _ => Or.inl rfl, fun U hU => ?_, ?_, ?_⟩
    · simp [Ne.symm hU]
    · simp only [thread_setCalls, if_pos]
      exact Swaps.top rfl rfl
    · simp [Thread.parked]
  · cases h
    refine ⟨fun _ => Or.inl rfl, fun U hU => ?_, ?_, ?_⟩
    · simp [Ne.symm hU]
    · simp only [thread_setCalls, if_pos]
      exact (Swaps.top rfl rfl).push rfl
    · simp [Thread.parked]
  · rename_i l r
    have hr := acquireDone_returned h
    refine ⟨fun l' => ?_, fun U hU => hr.others U hU, hr.swaps.pop rfl, hr.awake⟩
    rw [hr.lock, lock_setLock]
    split_ifs with hl
    · subst hl
      exact Or.inr ⟨rfl, r, rfl⟩
    · exact Or.inl rfl
  · cases h
    refine ⟨fun _ => Or.inl rfl, fun U hU => ?_, ?_, ?_⟩
    · simp [Ne.symm hU]
    · simp only [thread_setCalls, if_pos]
      exact Swaps.refl _
    · simp [Thread.parked]
  · cases h

theorem Returned.moved {c₀ : Client} {f : Call} (h : Returned c₀ T rest c')
    (hcalls : (c.thread T).calls = f :: rest) (hf : f.reconnects = false)
    (hothers : ∀ U, c₀.thread U = c.thread U) (he : LockEffect c T c' m) : Moved c T m c' := by
  refine ⟨fun U hU => (h.others U hU).trans (hothers U), ?_, he⟩
  rw [hcalls]
  exact .swap (h.swaps.pop hf)

/-- A move that only exchanges the top of the stack. -/
theorem moved_swap (calls' : List Call)
    (hthread : ∀ U, c'.thread U = (c.setCalls T calls').thread U)
    (hswap : Swaps (c.thread T).calls calls') (he : LockEffect c T c' m) : Moved c T m c' := by
  refine ⟨fun U hU => ?_, ?_, he⟩
  · rw [hthread, thread_setCalls, if_neg (Ne.symm hU)]
  · rw [hthread, thread_setCalls, if_pos rfl]
    exact .swap hswap

theorem moved_top {f : Call} (f' : Call) (hcalls : (c.thread T).calls = f :: rest)
    (hthread : ∀ U, c'.thread U = (c.setCalls T (f' :: rest)).thread U)
    (hf : f.reconnects = false) (hf' : f'.reconnects = false) (he : LockEffect c T c' m) :
    Moved c T m c' := by
  apply moved_swap (f' :: rest) hthread _ he
  rw [hcalls]
  exact Swaps.top hf hf'

theorem acquireCheck_moved (hcalls : (c.thread T).calls = .acquire lid .check :: rest)
    (h : c.acquireCheck t T lid rest = .done c' t') : Moved c T (.turn a b) c' := by
  unfold Client.acquireCheck at h
  dsimp only at h
  have hfree (h1 : ¬ ((c.lock lid).state ≠ .none ∧ (c.lock lid).state ≠ .free)) :
      (c.lock lid).state = .none ∨ (c.lock lid).state = .free := by
    by_contra hn
    exact h1 ⟨fun h => hn (Or.inl h), fun h => hn (Or.inr h)⟩
  split_ifs at h with h1 h2 h3
  · cases h
    refine moved_top (.acquire lid .waiting) hcalls (fun _ => rfl) rfl rfl ?_
    exact .sleeps (fun _ => rfl) hcalls h1 (by simp)
  · have hr := acquireDone_returned h
    refine hr.moved hcalls rfl (fun _ => rfl) ?_
    exact .givesUp (fun l => by rw [hr.lock]) hcalls h2 hr.awake
  · cases h
    refine moved_top (.acquire lid .call) hcalls (fun _ => rfl) rfl rfl ?_
    refine .takes _ (fun l => ?_) hcalls (hfree h1) (Or.inl ⟨rfl, h3.symm⟩)
      (by simp [Thread.parked])
    simp only [lock_setLcMutex, lock_setCalls, lock_setLock, eq_comm]
    split_ifs <;> rfl
  · have hr := acquireDone_returned h
    refine hr.moved hcalls rfl (fun _ => rfl) ?_
    refine .takes _ (fun l => ?_) hcalls (hfree h1) (Or.inr rfl) hr.awake
    rw [hr.lock, lock_setLock]
    simp only [eq_comm]
    split_ifs <;> rfl

theorem lockAcquired_moved {r : Reply}
    (hcalls : (c.thread T).calls = .acquire lid (.reply r) :: rest)
    (h : (c.setLcMutex (some T)).lockAcquired t T lid rest = some (.done c' t')) :
    Moved c T .wake c' := by
  have hlocked : ∀ cache, (((c.setLcMutex (some T)).setCache cache).setLock lid .locked
      false).acquireDone t T lid .ok rest = .done c' t' → Moved c T .wake c' := by
    intro cache hd
    have hr := acquireDone_returned hd
    refine hr.moved hcalls rfl (fun _ => rfl) ?_
    refine .replied _ (fun l => ?_) hcalls (Or.inr (Or.inl rfl)) hr.awake
    rw [hr.lock, lock_setLock]
    simp only [eq_comm]
    split_ifs <;> rfl
  unfold Client.lockAcquired at h
  dsimp only at h
  split_ifs at h with hst hec
  · split at h
    · exact hlocked c.localExtent (Option.some.inj h)
    · split_ifs at h with hdirty
      · split at h
        · cases h
        · exact hlocked c.localExtent (Option.some.inj h)
        · cases h
          refine moved_top (.resolve lid .draw) hcalls (fun _ => rfl) rfl rfl ?_
          refine .replied (c.lock lid).state (fun l => ?_) hcalls
            (Or.inr (Or.inr (Or.inl rfl))) (by simp [Thread.parked])
          split_ifs with hl
          · rw [hl]
            rfl
          · rfl
      · exact hlocked (c.localExtent.erase lid) (Option.some.inj h)
  · exact hlocked c.localExtent (Option.some.inj h)

theorem acquireReply_moved {r : Reply}
    (hcalls : (c.thread T).calls = .acquire lid (.reply r) :: rest)
    (h : (c.setLcMutex (some T)).acquireReply t T lid r rest = some (.done c' t')) :
    Moved c T .wake c' := by
  unfold Client.acquireReply at h
  dsimp only at h
  split_ifs at h with hd
  · have hr := acquireDone_returned (Option.some.inj h)
    refine hr.moved hcalls rfl (fun _ => rfl) ?_
    refine .replied .none (fun l => ?_) hcalls (Or.inl ⟨rfl, hd⟩) hr.awake
    rw [hr.lock, lock_setLock]
    simp only [eq_comm]
    split_ifs <;> rfl
  · split at h
    · exact lockAcquired_moved hcalls h
    · exact lockAcquired_moved hcalls h
    · rename_i hs
      cases h
      refine moved_top (.acquire lid .waitRetry) hcalls (fun _ => rfl) rfl rfl ?_
      refine .refused (fun l => ?_) hcalls hs (by simp)
      simp only [lock_setLcMutex, lock_setCalls, lock_setLock, eq_comm]
      split_ifs <;> rfl
    · rename_i hs
      cases h
      refine moved_top (.acquire lid .call) hcalls (fun _ => rfl) rfl rfl ?_
      refine .replied .acquiring (fun l => ?_) hcalls (Or.inr (Or.inr (Or.inr ⟨rfl, hs⟩)))
        (by simp [Thread.parked])
      simp only [lock_setLcMutex, lock_setCalls, lock_setLock, eq_comm]
      split_ifs <;> rfl
    · have hr := acquireDone_returned (Option.some.inj h)
      refine hr.moved hcalls rfl (fun _ => rfl) ?_
      refine .replied (c.lock lid).state (fun l => ?_) hcalls (Or.inr (Or.inr (Or.inl rfl)))
        hr.awake
      rw [hr.lock]
      split_ifs with hl
      · rw [hl]
        rfl
      · rfl

/-- The common end of the two branches of `release_wo` that signal. -/
theorem released_moved (c₀ : Client) {pc : ReleasePc} {st : LState} {stale : Bool}
    (hcalls : (c.thread T).calls = .release lid pc :: rest)
    (hthread : ∀ U, c₀.thread U = c.thread U) (hlock : ∀ l, c₀.lock l = c.lock l)
    (hst : st = .none ∨ st = .free)
    (hs : pc = .start ∧ (c.lock lid).state = .locked ∧ (∃ a b, m = .turn a b) ∨
      pc = .reply ∧ m = .wake)
    (h : (c₀.setLock lid st stale).releaseDone t T rest = .done c' t') : Moved c T m c' := by
  obtain ⟨hl,hothers,hswap,hawake⟩ := releaseDone_returned h
  refine ⟨fun U hU => (hothers U hU).trans (hthread U), ?_, ?_⟩
  · rw [hcalls]
    exact .swap (hswap.pop rfl)
  · refine .released (fun l => ?_) hcalls hs hawake
    rcases hl l with heq | hres
    · rw [heq, lock_setLock]
      split_ifs with hlid
      · exact Or.inr (Or.inl ⟨hlid.symm, hst⟩)
      · exact Or.inl ⟨Ne.symm hlid, by rw [hlock]⟩
    · exact Or.inr (Or.inr hres)

theorem releaseWo_moved (hcalls : (c.thread T).calls = .release lid .start :: rest)
    (h : c.releaseWo t now T lid rest = some (.done c' t')) : Moved c T (.turn a b) c' := by
  unfold Client.releaseWo at h
  dsimp only at h
  split at h
  · rename_i hs
    refine released_moved c hcalls (fun _ => rfl) (fun _ => rfl) ?_ (Or.inl ⟨rfl, hs, a, b, rfl⟩)
      (Option.some.inj h)
    split_ifs
    · exact Or.inl rfl
    · exact Or.inr rfl
  · split_ifs at h
    · cases h
    · split at h
      · cases h
      · cases h
        refine moved_top (.release lid .call) hcalls (fun _ => rfl) rfl rfl ?_
        refine .stays (fun _ => rfl) (fun l r => ?_) (fun l => ?_) (by simp [Thread.parked])
        · simp [hcalls]
        · simp [Thread.asleep, hcalls]
  · cases h

/-- The conflict branch changes its stage and may call `acquire_wo` or `release_wo`. -/
theorem resolve_moved {stage : Stage} {calls' : List Call}
    (hcalls : (c.thread T).calls = .resolve l stage :: rest)
    (hthread : ∀ U, c'.thread U = (c.setCalls T calls').thread U)
    (hlock : ∀ l, c'.lock l = c.lock l)
    (hcalls' : (∃ stage', calls' = .resolve l stage' :: rest) ∨
      (∃ n stage', calls' = .acquire n .start :: .resolve l stage' :: rest) ∨
      ∃ n stage', calls' = .release n .start :: .resolve l stage' :: rest) :
    Moved c T m c' := by
  have hnew : (c'.thread T).calls = calls' := by rw [hthread, thread_setCalls, if_pos rfl]
  refine moved_swap calls' hthread ?_ ?_
  · rw [hcalls]
    rcases hcalls' with ⟨st,rfl⟩ | ⟨n,st,rfl⟩ | ⟨n,st,rfl⟩
    · exact Swaps.top rfl rfl
    · exact (Swaps.top rfl rfl).push rfl
    · exact (Swaps.top rfl rfl).push rfl
  · refine .stays (fun l => by rw [hlock]) (fun l r => ?_) (fun l => ?_) ?_
    · simp [hcalls]
    · simp [Thread.asleep, hcalls]
    · rcases hcalls' with ⟨st,rfl⟩ | ⟨n,st,rfl⟩ | ⟨n,st,rfl⟩ <;> simp [Thread.parked, hnew]

/-- The two ways out of `withExtent`. -/
theorem withExtent_moved {stage st : Stage} {eid : ℕ} {noent : Outcome}
    {found : Client → Entry → Outcome}
    (hcalls : (c.thread T).calls = .resolve l stage :: rest)
    (hnoent : noent = .done c' t' → Moved c T m c')
    (hfound : ∀ e, found (c.setEcMutex none) e = .done c' t' → Moved c T m c')
    (h : c.withExtent t now T l rest st eid noent found = some (.done c' t')) : Moved c T m c' := by
  unfold Client.withExtent at h
  split_ifs at h
  split at h
  · exact hfound _ (Option.some.inj h)
  · split at h
    · exact hnoent (Option.some.inj h)
    · cases h
      exact resolve_moved hcalls (fun _ => rfl) (fun _ => rfl) (Or.inl ⟨_, rfl⟩)

theorem resolveStep_moved {stage : Stage} (hcalls : (c.thread T).calls = .resolve l stage :: rest)
    (h : c.resolveStep t now T a b l rest stage = some (.done c' t')) :
    Moved c T (.turn a b) c' := by
  unfold Client.resolveStep at h
  split at h
  · cases h
    exact resolve_moved hcalls (fun _ => rfl) (fun _ => rfl) (Or.inr (Or.inl ⟨_, _, rfl⟩))
  · refine withExtent_moved hcalls (fun hn => ?_) (fun e hf => ?_) h
    · cases hn
      exact resolve_moved hcalls (fun _ => rfl) (fun _ => rfl) (Or.inr (Or.inl ⟨_, _, rfl⟩))
    · cases hf
      exact resolve_moved hcalls (fun _ => rfl) (fun _ => rfl) (Or.inr (Or.inr ⟨_, _, rfl⟩))
  · refine withExtent_moved hcalls (fun hn => ?_) (fun e hf => ?_) h
    · cases hn
    · cases hf
      exact resolve_moved hcalls (fun _ => rfl) (fun _ => rfl) (Or.inl ⟨_, rfl⟩)
  · refine withExtent_moved hcalls (fun hn => ?_) (fun e hf => ?_) h
    · cases hn
    · split at hf
      · cases hf
      · cases hf
        exact resolve_moved hcalls (fun _ => rfl) (fun _ => rfl) (Or.inl ⟨_, rfl⟩)
  · refine withExtent_moved hcalls (fun hn => ?_) (fun e hf => ?_) h
    · cases hn
    · cases hf
      exact resolve_moved hcalls (fun _ => rfl) (fun _ => rfl) (Or.inl ⟨_, rfl⟩)
  · split_ifs at h
    split at h
    · cases h
    · cases h
      exact resolve_moved hcalls (fun _ => rfl) (fun _ => rfl) (Or.inr (Or.inr ⟨_, _, rfl⟩))
  · split at h
    · cases h
    · split at h
      · cases h
      · cases h
        exact resolve_moved hcalls (fun _ => rfl) (fun _ => rfl) (Or.inl ⟨_, rfl⟩)
  · cases h

theorem reconnectLoop_moved {k : Option ℕ} (hcalls : (c.thread T).calls = .reconnect k :: rest)
    (hb : Bottomed (c.thread T).calls) (h : c.reconnectLoop t T k rest = .done c' t') :
    Moved c T (.turn a b) c' := by
  obtain rfl : rest = [] := hb [] k rest hcalls
  have hcheck : ∀ lid r, (c.thread T).calls ≠ .acquire lid .check :: r := by simp [hcalls]
  have hold : ∀ lid, (c.thread T).asleep ≠ some (.release, lid) := by
    simp [Thread.asleep, hcalls]
  have hgo : ∀ calls' j, c.lockStatus.nextKey k = some j →
      Swaps [.reconnect (some j)] calls' → (∀ held u, (Thread.mk calls' held u).parked = false) →
      c.setCalls T calls' = c' → Moved c T (.turn a b) c' := by
    intro calls' j hj hswap hnew hc'
    subst hc'
    refine ⟨fun U hU => by simp [Ne.symm hU], ?_, .stays (fun _ => rfl) hcheck hold ?_⟩
    · rw [hcalls, thread_setCalls, if_pos rfl]
      exact .next hj hswap
    · rw [thread_setCalls, if_pos rfl]
      exact hnew _ _
  unfold Client.reconnectLoop at h
  split at h
  · rename_i hk
    cases h
    refine ⟨fun U hU => ?_, ?_, .stays (fun _ => rfl) hcheck hold ?_⟩
    · simp only [thread_setLcMutex, thread_setCalls, if_neg (Ne.symm hU)]
      rfl
    · rw [hcalls, thread_setLcMutex, thread_setCalls, if_pos rfl]
      exact .done hk
    · simp [Thread.parked]
  · rename_i j hj
    split_ifs at h
    · exact hgo _ j hj (Swaps.refl _) (fun _ _ => rfl) (Outcome.done.inj h).1
    · exact hgo _ j hj ((Swaps.refl _).push rfl) (fun _ _ => rfl) (Outcome.done.inj h).1

theorem turn_moved (hb : Bottomed (c.thread T).calls)
    (h : c.turn t now T a b = some (.done c' t')) : Moved c T (.turn a b) c' := by
  unfold Client.turn at h
  split at h
  · rename_i hcalls
    unfold Client.acquireEnter at h
    dsimp only at h
    split_ifs at h
    · cases h
    · cases h
      refine moved_top (.acquire _ .check) hcalls (fun _ => rfl) rfl rfl ?_
      refine .stays (fun _ => rfl) (fun l r => ?_) (fun l => ?_) (by simp [Thread.parked])
      · simp [hcalls]
      · simp [Thread.asleep, hcalls]
  · rename_i hcalls
    exact acquireCheck_moved hcalls (Option.some.inj h)
  · rename_i hcalls
    exact releaseWo_moved hcalls h
  · rename_i hcalls
    exact resolveStep_moved hcalls h
  · rename_i hcalls
    exact reconnectLoop_moved hcalls hb (Option.some.inj h)
  · cases h

theorem wake_moved (h : c.wake t T = some (.done c' t')) : Moved c T .wake c' := by
  unfold Client.wake at h
  split at h
  · rename_i hcalls
    cases h
    refine moved_top (.acquire _ .check) hcalls (fun _ => rfl) rfl rfl ?_
    exact .rises (fun _ => rfl) hcalls (by simp)
  · rename_i hcalls
    exact acquireReply_moved hcalls h
  · rename_i hcalls
    split_ifs at h
    cases h
    refine moved_top (.acquire _ .call) hcalls (fun _ => rfl) rfl rfl ?_
    refine .stays (fun _ => rfl) (fun l r => ?_) (fun l => ?_) (by simp [Thread.parked])
    · simp [hcalls]
    · simp [Thread.asleep, hcalls]
  · rename_i hcalls
    exact released_moved (c.setLcMutex (some T)) hcalls (fun _ => rfl) (fun _ => rfl) (Or.inl rfl)
      (Or.inr ⟨rfl, rfl⟩) (Option.some.inj h)
  · cases h

/-- A move of the application itself: the thread has no call of `acquire` or `release` pending. -/
theorem moved_plain (hcalls : ∀ lid pc rest, (c.thread T).calls ≠ .acquire lid pc :: rest)
    (hothers : ∀ U, U ≠ T → c'.thread U = c.thread U)
    (hlock : ∀ l, (c'.lock l).state = (c.lock l).state)
    (hstack : StackStep c.lockStatus (c.thread T).calls (c'.thread T).calls)
    (hnew : (c'.thread T).parked = false) : Moved c T m c' := by
  refine ⟨hothers, hstack, .stays hlock (fun lid r => hcalls lid .check r) (fun lid hs => ?_) hnew⟩
  unfold Thread.asleep at hs
  split at hs
  · rename_i hc
    exact hcalls _ _ _ hc
  · cases hs
  · cases hs

theorem idle_calls {th : Thread} (h : th.idle = true) : th.calls = [] := by
  simp only [Thread.idle, Bool.and_eq_true, decide_eq_true_eq] at h
  exact h.1

/-- A thread without pending calls gets the stack `calls'`. -/
theorem moved_idle (th : Thread) (hcalls : (c.thread T).calls = [])
    (hthread : ∀ U, c'.thread U = (c.setThread T th).thread U)
    (hlock : ∀ l, (c'.lock l).state = (c.lock l).state)
    (hstack : StackStep c.lockStatus [] th.calls)
    (hnew : th.parked = false) : Moved c T m c' := by
  apply moved_plain
  · simp [hcalls]
  · intro U hU
    rw [hthread, thread_setThread, if_neg (Ne.symm hU)]
  · exact hlock
  · rw [hcalls, hthread, thread_setThread, if_pos rfl]
    exact hstack
  · rw [hthread, thread_setThread, if_pos rfl]
    exact hnew

theorem access_moved {op : Access} (h : c.access t now T lid op = some (.done c' t')) :
    Moved c T m c' := by
  unfold Client.access at h
  dsimp only at h
  split at h
  · cases h
  · split_ifs at h with hidle
    simp only [Bool.and_eq_true] at hidle
    have hcalls := idle_calls hidle.1
    split at h
    · cases h
      exact moved_idle _ hcalls (fun _ => rfl) (fun _ => rfl) (.swap (Swaps.refl _)) rfl
    · split at h
      · cases h
        exact moved_idle _ hcalls (fun _ => rfl) (fun _ => rfl) (.swap (Swaps.refl _)) rfl
      · cases h
        exact moved_idle _ hcalls (fun _ => rfl) (fun _ => rfl)
          (.swap ((Swaps.refl _).push rfl)) rfl

theorem loadAttr_moved (h : c.loadAttr t now T = some (.done c' t')) : Moved c T m c' := by
  unfold Client.loadAttr at h
  dsimp only at h
  split at h
  · rename_i hcalls
    split at h
    · cases h
    · cases h
      apply moved_plain
      · simp [hcalls]
      · intro U hU
        simp [Ne.symm hU]
      · intro l
        rfl
      · rw [hcalls]
        simp only [thread_setEcMutex, thread_setThread, if_pos]
        exact .swap ((Swaps.refl []).pop rfl)
      · simp [Thread.parked]
  · cases h

/-- The first loop of `disconnect(false)` only marks locks stale. -/
theorem entry_marked (m : LockMap) (l : ℕ) :
    (LockMap.entry (m.map (fun _ s => if s.state = .none then s else ⟨s.state, true⟩)) l).state =
      (m.entry l).state := by
  simp only [LockMap.entry, ExtTreeMap.getElem?_map]
  rcases m[l]? with _ | s
  · rfl
  · simp only [Option.map_some, Option.getD_some]
    split_ifs <;> rfl

/-- What one move of a thread can do to its client. -/
theorem move_moved (hb : Bottomed (c.thread T).calls)
    (h : c.move t now T m = some (.done c' t')) : Moved c T m c' := by
  cases m with
  | callAcquire lid =>
    simp only [Client.move] at h
    split_ifs at h with hidle
    simp only [Bool.and_eq_true] at hidle
    cases h
    exact moved_idle _ (idle_calls hidle.1) (fun _ => rfl) (fun _ => rfl)
      (.swap ((Swaps.refl _).push rfl)) rfl
  | callRelease lid unlink =>
    simp only [Client.move] at h
    split at h
    · cases h
    · by_cases hcalls : ((c.thread T).calls = [] && c.lcMutex = none &&
          (!unlink || isfile lid && (c.thread T).unlinking = none)) = true
      · rw [if_pos hcalls] at h
        simp only [Bool.and_eq_true, decide_eq_true_eq] at hcalls
        cases h
        exact moved_idle _ hcalls.1.1 (fun _ => rfl) (fun _ => rfl)
          (.swap ((Swaps.refl _).push rfl)) rfl
      · rw [if_neg hcalls] at h
        cases h
  | turn a b =>
    simp only [Client.move] at h
    split_ifs at h
    exact turn_moved hb h
  | wake =>
    simp only [Client.move] at h
    split_ifs at h
    exact wake_moved h
  | access lid op => exact access_moved h
  | loadAttr => exact loadAttr_moved h
  | put lid buf =>
    simp only [Client.move] at h
    split at h
    · cases h
    · split_ifs at h with hidle
      simp only [Bool.and_eq_true] at hidle
      cases h
      have hcalls := idle_calls hidle.1
      apply moved_plain
      · simp [hcalls]
      · exact fun _ _ => rfl
      · exact fun _ => rfl
      · exact .swap (Swaps.refl _)
      · change (c.thread T).parked = false
        simp [Thread.parked, hcalls]
  | unlinkRemove lid =>
    simp only [Client.move] at h
    split_ifs at h with hcalls
    simp only [Bool.and_eq_true, decide_eq_true_eq] at hcalls
    split at h
    · cases h
    · cases h
      exact moved_idle _ hcalls.1.1 (fun _ => rfl) (fun _ => rfl) (.swap (Swaps.refl _)) rfl
  | reconnect =>
    simp only [Client.move] at h
    split_ifs at h with hidle
    simp only [Bool.and_eq_true] at hidle
    replace h := Option.some.inj h
    unfold Client.reconnect at h
    split_ifs at h with hany
    cases h
    have hbusy : ∀ l, (c.lockStatus.entry l).state.busy = false := by
      intro l
      unfold LockMap.entry
      rcases hl : c.lockStatus[l]? with _ | s
      · rfl
      · by_contra hs
        refine hany (List.any_eq_true.mpr ⟨(l, s), ?_, Bool.not_eq_false _ ▸ hs⟩)
        exact ExtTreeMap.mem_toList_iff_getElem?_eq_some.mpr hl
    exact moved_idle ⟨[.reconnect none], _, _⟩ (idle_calls hidle.1.1) (fun _ => rfl)
      (fun l => entry_marked c.lockStatus l) (.begin hbusy) rfl

end Functions

section Stacks
variable {m : LockMap} {calls calls' : List Call}

theorem Swaps.mem {k : Option ℕ} (h : Swaps calls calls') (hk : .reconnect k ∈ calls') :
    .reconnect k ∈ calls := by
  obtain ⟨a,b,rest,rfl,rfl,hab⟩ := h
  rcases List.mem_append.mp hk with hk | hk
  · have := hab _ (List.mem_append_right a hk)
    cases this
  · exact List.mem_append_right a hk

theorem bottomed_iff : Bottomed calls ↔ ∀ f ∈ calls.dropLast, f.reconnects = false := by
  constructor
  · intro h f hf
    by_contra hr
    cases f with
    | reconnect k =>
      -- something stands below the loop
      obtain ⟨pre,post,hpost⟩ := List.append_of_mem hf
      have hne : calls ≠ [] := by
        rintro rfl
        cases hf
      have hsplit := List.dropLast_append_getLast hne
      rw [hpost, List.append_assoc] at hsplit
      have := h pre k (post ++ [calls.getLast hne]) hsplit.symm
      simp at this
    | _ => exact hr rfl
  · intro h pre k rest hcalls
    by_contra hrest
    have hmem : Call.reconnect k ∈ calls.dropLast := by
      rw [hcalls, List.dropLast_append_of_ne_nil (by simp)]
      refine List.mem_append_right _ ?_
      rw [List.dropLast_cons_of_ne_nil hrest]
      exact List.mem_cons_self
    cases h _ hmem

theorem Swaps.bottomed (h : Swaps calls calls') (hb : Bottomed calls) : Bottomed calls' := by
  obtain ⟨a,b,rest,rfl,rfl,hab⟩ := h
  rw [bottomed_iff] at hb ⊢
  intro f hf
  by_cases hrest : rest = []
  · subst hrest
    rw [List.append_nil] at hf
    exact hab f (List.mem_append_right a ((List.dropLast_sublist b).subset hf))
  · rw [List.dropLast_append_of_ne_nil hrest] at hb hf
    rcases List.mem_append.mp hf with hf | hf
    · exact hab f (List.mem_append_right a hf)
    · exact hb f (List.mem_append_right a hf)

theorem StackStep.bottomed (h : StackStep m calls calls') (hb : Bottomed calls) :
    Bottomed calls' := by
  cases h with
  | swap h => exact h.bottomed hb
  | begin _ =>
    rw [bottomed_iff]
    simp
  | @next k j rest _ hj h =>
    obtain rfl : rest = [] := hb [] k rest rfl
    refine h.bottomed ?_
    rw [bottomed_iff]
    simp
  | @done k rest _ =>
    rw [bottomed_iff]
    obtain rfl : calls' = [] := hb [] k calls' rfl
    simp

/-- Whoever is in the loop after a step was in it before, has just begun, or has gone on to the
next lock. -/
theorem StackStep.loop {k : Option ℕ} (h : StackStep m calls calls') (hb : Bottomed calls)
    (hk : .reconnect k ∈ calls') :
    .reconnect k ∈ calls ∨ (calls = [] ∧ ∀ l, (m.entry l).state.busy = false) ∨
      ∃ k₀ j, calls = [.reconnect k₀] ∧ m.nextKey k₀ = some j ∧ k = some j := by
  cases h with
  | swap h => exact Or.inl (h.mem hk)
  | begin h => exact Or.inr (Or.inl ⟨rfl, h⟩)
  | @next k₀ j rest _ hj h =>
    obtain rfl : rest = [] := hb [] k₀ rest rfl
    have := List.mem_singleton.mp (h.mem hk)
    exact Or.inr (Or.inr ⟨k₀, j, rfl, hj, Call.reconnect.inj this⟩)
  | done _ => exact Or.inl (List.mem_cons_of_mem _ hk)

end Stacks

end DisconnectedYfs.YFS
