import DisconnectedYfs.RPCSelectAio

/-! `PollMgr`: its loop, which calls back without the mutex, and the threads that add and remove
callbacks. A descriptor that has been removed with `block_remove_fd` is not called back until it is
added again. -/
namespace DisconnectedYfs.RPC
open TraceSystem

/-- `MAX_POLL_FDS`. -/
def maxPollFds : ℕ := 128

/-- Where a thread that calls `PollMgr` is. Between two stages it holds `m_`, except while it waits
on `changedone_c_` and after it has been woken. -/
inductive CallStage where
  | idle
  | adding (fd ch : ℕ)
  | deleting (fd : ℕ) (unwatched : Bool)
  | removing (fd : ℕ)
  | waiting (fd : ℕ)
  | woken (fd : ℕ)
deriving DecidableEq, Repr

/-- Where `wait_loop` is: about to look at `pending_change_`, about to copy the sets, in `select`
with the copies, at the descriptors still to be called back, having seen the callback of one of
them, or in that callback. -/
inductive LoopStage where
  | top
  | copying
  | selecting (trfds twfds : Finset ℕ) (high : ℕ)
  | calling (todo : List (Dir × ℕ))
  | called (d : Dir) (fd : ℕ) (todo : List (Dir × ℕ))
  | running (d : Dir) (fd ch : ℕ) (todo : List (Dir × ℕ))
deriving DecidableEq

/-- Callbacks and threads are numbers. -/
structure PollMgr where
  aio : SelectAio
  callbacks : ℕ → Option ℕ := fun _ => none
  pendingChange : Bool := false
  owner : Option ℕ := none
  stage : ℕ → CallStage := fun _ => .idle
  loop : LoopStage := .top

inductive PollEvent where
  | add (t fd : ℕ) (flag : PollFlag) (ch : ℕ)
  | addEnd (t : ℕ)
  | del (t fd : ℕ) (flag : PollFlag)
  | delEnd (t : ℕ)
  | remove (t fd : ℕ)
  | wait (t : ℕ)
  | removeEnd (t : ℕ)
  | top
  | copy
  | select (ready : Option ((ℕ → Bool) × (ℕ → Bool)))
  | look
  | invoke
  | finish

namespace PollMgr

def init (pipefd0 pipefd1 : ℕ) : PollMgr := { aio := .init pipefd0 pipefd1 }

def setStage (p : PollMgr) (t : ℕ) (st : CallStage) : PollMgr :=
  { p with stage := fun u => if u = t then st else p.stage u }

/-- An idle thread takes `m_`. -/
def enter (p : PollMgr) (t : ℕ) : Option PollMgr :=
  if p.stage t = .idle ∧ p.owner = none then some { p with owner := some t } else none

/-- `callbacks_[fd] = ch`, within the array. -/
def setCallback (p : PollMgr) (fd : ℕ) (ch : Option ℕ) : Option PollMgr :=
  if fd < maxPollFds then
    some { p with callbacks := fun i => if i = fd then ch else p.callbacks i }
  else none

/-- The broadcast wakes every thread that waits. -/
def broadcast (p : PollMgr) : PollMgr :=
  { p with
    stage := fun t => match p.stage t with
      | .waiting fd => .woken fd
      | st => st }

/-- `add_callback`, up to its second `VERIFY`. -/
def addCallback (p : PollMgr) (t fd : ℕ) (flag : PollFlag) (ch : ℕ) : Option PollMgr := do
  let p ← p.enter t
  if fd < maxPollFds then
    let aio ← p.aio.watchFd fd flag
    some ({ p with aio := aio }.setStage t (.adding fd ch))
  else none

def addCallbackEnd (p : PollMgr) (t : ℕ) : Option PollMgr :=
  match p.stage t with
  | .adding fd ch =>
    if p.callbacks fd = none ∨ p.callbacks fd = some ch then
      (p.setCallback fd (some ch)).map fun p => { p with owner := none }.setStage t .idle
    else none
  | _ => none

/-- `del_callback`, up to the test of what `unwatch_fd` returned. -/
def delCallback (p : PollMgr) (t fd : ℕ) (flag : PollFlag) : Option PollMgr := do
  let p ← p.enter t
  let (b, aio) ← p.aio.unwatchFd fd flag
  some ({ p with aio := aio }.setStage t (.deleting fd b))

def delCallbackEnd (p : PollMgr) (t : ℕ) : Option PollMgr :=
  match p.stage t with
  | .deleting fd unwatched =>
    (if unwatched then p.setCallback fd none else some p).map fun p =>
      { p with owner := none }.setStage t .idle
  | _ => none

/-- `block_remove_fd`, up to the assignment to `pending_change_`. -/
def blockRemoveFd (p : PollMgr) (t fd : ℕ) : Option PollMgr := do
  let p ← p.enter t
  let (_, aio) ← p.aio.unwatchFd fd .cbRdwr
  some ({ p with aio := aio }.setStage t (.removing fd))

/-- `pthread_cond_wait` gives up `m_`. -/
def blockRemoveWait (p : PollMgr) (t : ℕ) : Option PollMgr :=
  match p.stage t with
  | .removing fd => some ({ p with pendingChange := true, owner := none }.setStage t (.waiting fd))
  | _ => none

/-- A woken thread needs `m_` again, and gives it up when it returns. -/
def blockRemoveEnd (p : PollMgr) (t : ℕ) : Option PollMgr :=
  match p.stage t with
  | .woken fd =>
    if p.owner = none then (p.setCallback fd none).map fun p => p.setStage t .idle else none
  | _ => none

/-- The start of `wait_loop`'s cycle, under `m_`. -/
def loopTop (p : PollMgr) : Option PollMgr :=
  match p.loop with
  | .top =>
    if p.owner = none then
      some (if p.pendingChange then { p with pendingChange := false, loop := .copying }.broadcast
        else { p with loop := .copying })
    else none
  | _ => none

def loopCopy (p : PollMgr) : Option PollMgr :=
  match p.loop with
  | .copying => some { p with loop := .selecting p.aio.rfds p.aio.wfds p.aio.highfds }
  | _ => none

/-- The readable descriptors are called back before the writable ones. -/
def callBacks (s : SelectAio.Scanned) : LoopStage :=
  if s.readable = [] ∧ s.writable = [] then .top
  else .calling (s.readable.map (Prod.mk .read) ++ s.writable.map (Prod.mk .write))

def loopSelect (p : PollMgr) (ready : Option ((ℕ → Bool) × (ℕ → Bool))) : Option PollMgr :=
  match p.loop with
  | .selecting trfds twfds high =>
    let (s, aio) := p.aio.finishWait trfds twfds high ready
    some { p with aio := aio, loop := callBacks s }
  | _ => none

/-- `if (callbacks_[fd])`. -/
def loopLook (p : PollMgr) : Option PollMgr :=
  match p.loop with
  | .calling [] => some { p with loop := .top }
  | .calling ((d, fd) :: todo) =>
    if fd < maxPollFds then
      some { p with loop := if (p.callbacks fd).isSome then .called d fd todo else .calling todo }
    else none
  | _ => none

/-- The pointer is read again for the call; it must not be null by then. -/
def loopInvoke (p : PollMgr) : Option PollMgr :=
  match p.loop with
  | .called d fd todo => (p.callbacks fd).map fun ch => { p with loop := .running d fd ch todo }
  | _ => none

def loopFinish (p : PollMgr) : Option PollMgr :=
  match p.loop with
  | .running _ _ _ todo => some { p with loop := .calling todo }
  | _ => none

def step (p : PollMgr) : PollEvent → Option PollMgr
  | .add t fd flag ch => p.addCallback t fd flag ch
  | .addEnd t => p.addCallbackEnd t
  | .del t fd flag => p.delCallback t fd flag
  | .delEnd t => p.delCallbackEnd t
  | .remove t fd => p.blockRemoveFd t fd
  | .wait t => p.blockRemoveWait t
  | .removeEnd t => p.blockRemoveEnd t
  | .top => p.loopTop
  | .copy => p.loopCopy
  | .select ready => p.loopSelect ready
  | .look => p.loopLook
  | .invoke => p.loopInvoke
  | .finish => p.loopFinish

end PollMgr

/-- The loop has the descriptor in hand: in its copies of the sets, or in what it calls back. -/
def LoopStage.Handles (fd : ℕ) : LoopStage → Prop
  | .top | .copying => False
  | .selecting trfds twfds _ => fd ∈ trfds ∨ fd ∈ twfds
  | .calling todo => ∃ d, (d, fd) ∈ todo
  | .called d i todo => ∃ d', (d', fd) ∈ (d, i) :: todo
  | .running d i _ todo => ∃ d', (d', fd) ∈ (d, i) :: todo

namespace PollMgr

/-- `add_callback` is called for the descriptor. -/
def Adds (fd : ℕ) : PollEvent → Prop
  | .add _ i _ _ => i = fd
  | _ => False

/-- A thread is in `block_remove_fd` for the descriptor. -/
def Removing (p : PollMgr) (fd : ℕ) : Prop :=
  ∃ t, p.stage t = .removing fd ∨ p.stage t = .waiting fd ∨ p.stage t = .woken fd

/-- Nobody calls `add_callback` for the descriptor while `block_remove_fd` is in progress. -/
def NoAddMeanwhile (fd : ℕ) (p : PollMgr) (e : PollEvent) : Prop := Adds fd e → ¬ p.Removing fd

def Unwatched (p : PollMgr) (fd : ℕ) : Prop := fd ∉ p.aio.rfds ∧ fd ∉ p.aio.wfds

/-- The descriptor is not watched, and the loop does not have it in hand. -/
structure Gone (p : PollMgr) (fd : ℕ) : Prop where
  unwatched : p.Unwatched fd
  loop : ¬ p.loop.Handles fd

/-- What every remover of the descriptor relies on. -/
structure Removed (fd : ℕ) (p : PollMgr) : Prop where
  unwatched : ∀ t, p.stage t = .removing fd ∨ p.stage t = .waiting fd → p.Unwatched fd
  gone : ∀ t, p.stage t = .woken fd → p.Gone fd

/-- What a step does to a descriptor: only `add_callback` for it makes it watched, the loop takes it
up only while it is watched, and of the threads that remove it only those that wait are woken, when
the loop has nothing in hand. -/
structure StepFacts (fd : ℕ) (p : PollMgr) (e : PollEvent) (p' : PollMgr) : Prop where
  unwatched : ¬ Adds fd e → p.Unwatched fd → p'.Unwatched fd
  handles : p'.loop.Handles fd → p.loop.Handles fd ∨ ¬ p.Unwatched fd
  removing : ∀ t, p'.stage t = .removing fd → p.stage t = .removing fd ∨ p'.Unwatched fd
  waiting : ∀ t, p'.stage t = .waiting fd → p.stage t = .waiting fd ∨ p.stage t = .removing fd
  woken : ∀ t, p'.stage t = .woken fd →
    p.stage t = .woken fd ∨ p.stage t = .waiting fd ∧ ¬ p'.loop.Handles fd

section
variable {p p' q : PollMgr} {e : PollEvent} {t fd i ch : ℕ} {flag : PollFlag}

/-- A step of a thread that calls `PollMgr`. -/
theorem facts_of_call (t : ℕ) (st : CallStage) (hloop : p'.loop = p.loop)
    (hstage : ∀ u, p'.stage u = if u = t then st else p.stage u)
    (hsets : ¬ Adds fd e → p.Unwatched fd → p'.Unwatched fd)
    (hremoving : st = .removing fd → p'.Unwatched fd)
    (hwaiting : st = .waiting fd → p.stage t = .removing fd) (hwoken : st ≠ .woken fd) :
    StepFacts fd p e p' := by
  refine ⟨hsets, fun h => Or.inl (hloop ▸ h), ?_, ?_, ?_⟩ <;> intro u hu <;> rw [hstage u] at hu <;>
    split_ifs at hu with heq
  · exact Or.inr (hremoving hu)
  · exact Or.inl hu
  · exact Or.inr (heq ▸ hwaiting hu)
  · exact Or.inl hu
  · exact absurd hu hwoken
  · exact Or.inl hu

/-- A step of the loop other than the broadcast. -/
theorem facts_of_loop (hstage : p'.stage = p.stage)
    (hsets : p'.aio.rfds = p.aio.rfds ∧ p'.aio.wfds = p.aio.wfds)
    (hhandles : p'.loop.Handles fd → p.loop.Handles fd ∨ ¬ p.Unwatched fd) :
    StepFacts fd p e p' := by
  refine ⟨fun _ h => ?_, hhandles, ?_, ?_, ?_⟩
  · unfold Unwatched
    rw [hsets.1, hsets.2]
    exact h
  all_goals
    intro u hu
    rw [hstage] at hu
    exact Or.inl hu

theorem enter_eq (h : p.enter t = some p') : p' = { p with owner := some t } := by
  unfold enter at h
  split_ifs at h
  exact (Option.some.inj h).symm

theorem setCallback_eq {c : Option ℕ} (h : p.setCallback fd c = some p') :
    p' = { p with callbacks := fun i => if i = fd then c else p.callbacks i } := by
  unfold setCallback at h
  split_ifs at h
  exact (Option.some.inj h).symm

theorem facts_add (h : p.addCallback t i flag ch = some p') :
    StepFacts fd p (.add t i flag ch) p' := by
  obtain ⟨p₁,henter,h⟩ := Option.bind_eq_some_iff.mp h
  split_ifs at h
  obtain ⟨aio,haio,h⟩ := Option.bind_eq_some_iff.mp h
  cases enter_eq henter
  cases h
  refine facts_of_call t (.adding i ch) rfl (fun _ => rfl) ?_ (fun h => by cases h)
    (fun h => by cases h) (fun h => by cases h)
  intro hadd hun
  have hother := watchFd_other haio (i := fd) (fun heq => hadd heq.symm)
  exact ⟨fun hmem => hun.1 (hother.1.mp hmem), fun hmem => hun.2 (hother.2.mp hmem)⟩

theorem facts_addEnd (h : p.addCallbackEnd t = some p') : StepFacts fd p (.addEnd t) p' := by
  unfold addCallbackEnd at h
  split at h
  · split_ifs at h
    obtain ⟨p₁,hset,rfl⟩ := Option.map_eq_some_iff.mp h
    cases setCallback_eq hset
    exact facts_of_call t .idle rfl (fun _ => rfl) (fun _ h => h)
      (fun h => by cases h) (fun h => by cases h) (fun h => by cases h)
  · cases h

/-- Clearing bits of one descriptor. -/
theorem unwatched_of_unwatch {b : Bool} {aio : SelectAio}
    (h : p.aio.unwatchFd i flag = some (b, aio)) (hun : p.Unwatched fd) :
    fd ∉ aio.rfds ∧ fd ∉ aio.wfds := by
  obtain ⟨hr,hw⟩ := unwatchFd_sets h
  exact ⟨fun hmem => hun.1 ((hr fd).mp hmem).1, fun hmem => hun.2 ((hw fd).mp hmem).1⟩

theorem facts_del (h : p.delCallback t i flag = some p') : StepFacts fd p (.del t i flag) p' := by
  obtain ⟨p₁,henter,h⟩ := Option.bind_eq_some_iff.mp h
  obtain ⟨⟨b,aio⟩,haio,h⟩ := Option.bind_eq_some_iff.mp h
  cases enter_eq henter
  cases h
  exact facts_of_call t (.deleting i b) rfl (fun _ => rfl)
    (fun _ hun => unwatched_of_unwatch haio hun) (fun h => by cases h) (fun h => by cases h)
    (fun h => by cases h)

theorem facts_delEnd (h : p.delCallbackEnd t = some p') : StepFacts fd p (.delEnd t) p' := by
  unfold delCallbackEnd at h
  split at h
  · obtain ⟨p₁,hset,rfl⟩ := Option.map_eq_some_iff.mp h
    have hsame : p₁.loop = p.loop ∧ p₁.stage = p.stage ∧ p₁.aio = p.aio := by
      split_ifs at hset
      · cases setCallback_eq hset
        exact ⟨rfl, rfl, rfl⟩
      · cases hset
        exact ⟨rfl, rfl, rfl⟩
    refine facts_of_call t .idle hsame.1 (fun u => ?_) (fun _ h => ?_)
      (fun h => by cases h) (fun h => by cases h) (fun h => by cases h)
    · rw [← hsame.2.1]
      rfl
    · unfold Unwatched at h ⊢
      rw [← hsame.2.2] at h
      exact h
  · cases h

/-- A remover has cleared both bits. -/
theorem facts_remove (h : p.blockRemoveFd t i = some p') : StepFacts fd p (.remove t i) p' := by
  obtain ⟨p₁,henter,h⟩ := Option.bind_eq_some_iff.mp h
  obtain ⟨⟨b,aio⟩,haio,h⟩ := Option.bind_eq_some_iff.mp h
  cases enter_eq henter
  cases h
  refine facts_of_call t (.removing i) rfl (fun _ => rfl)
    (fun _ hun => unwatched_of_unwatch haio hun) ?_ (fun h => by cases h) (fun h => by cases h)
  intro heq
  cases heq
  obtain ⟨hr,hw⟩ := unwatchFd_sets haio
  exact ⟨fun hmem => ((hr fd).mp hmem).2 ⟨rfl, rfl⟩, fun hmem => ((hw fd).mp hmem).2 ⟨rfl, rfl⟩⟩

theorem facts_wait (h : p.blockRemoveWait t = some p') : StepFacts fd p (.wait t) p' := by
  unfold blockRemoveWait at h
  split at h
  · rename_i i hstage
    cases h
    refine facts_of_call t (.waiting i) rfl (fun _ => rfl) (fun _ h => h)
      (fun h => by cases h) ?_ (fun h => by cases h)
    intro heq
    cases heq
    exact hstage
  · cases h

theorem facts_removeEnd (h : p.blockRemoveEnd t = some p') : StepFacts fd p (.removeEnd t) p' := by
  unfold blockRemoveEnd at h
  split at h
  · split_ifs at h
    obtain ⟨p₁,hset,rfl⟩ := Option.map_eq_some_iff.mp h
    cases setCallback_eq hset
    exact facts_of_call t .idle rfl (fun _ => rfl) (fun _ h => h)
      (fun h => by cases h) (fun h => by cases h) (fun h => by cases h)
  · cases h

/-- At the top of its cycle the loop has nothing in hand, and that is where it wakes the
removers. -/
theorem facts_top (h : p.loopTop = some p') : StepFacts fd p .top p' := by
  unfold loopTop at h
  split at h
  · split_ifs at h with howner hpending
    · cases h
      refine ⟨fun _ h => h, fun h => absurd h id, ?_, ?_, ?_⟩ <;> intro u hu
      · left
        unfold broadcast at hu
        dsimp only at hu
        split at hu
        · cases hu
        · exact hu
      · left
        unfold broadcast at hu
        dsimp only at hu
        split at hu
        · cases hu
        · exact hu
      · unfold broadcast at hu
        dsimp only at hu
        split at hu
        · rename_i hwaiting
          cases hu
          exact Or.inr ⟨hwaiting, id⟩
        · exact Or.inl hu
    · cases h
      exact facts_of_loop rfl ⟨rfl, rfl⟩ (fun h => absurd h id)
  · cases h

theorem facts_copy (h : p.loopCopy = some p') : StepFacts fd p .copy p' := by
  unfold loopCopy at h
  split at h
  · cases h
    refine facts_of_loop rfl ⟨rfl, rfl⟩ (fun h => Or.inr ?_)
    intro hun
    exact h.elim hun.1 hun.2
  · cases h

theorem mem_of_callBacks {s : SelectAio.Scanned} (h : (callBacks s).Handles fd) :
    fd ∈ s.readable ∨ fd ∈ s.writable := by
  unfold callBacks at h
  split_ifs at h
  · exact absurd h id
  · obtain ⟨d,hmem⟩ := h
    refine (List.mem_append.mp hmem).imp (fun hmem => ?_) (fun hmem => ?_) <;>
      obtain ⟨i,hi,heq⟩ := List.mem_map.mp hmem <;> cases heq <;> exact hi

/-- What it calls back is from its copies. -/
theorem facts_select {ready : Option ((ℕ → Bool) × (ℕ → Bool))}
    (h : p.loopSelect ready = some p') : StepFacts fd p (.select ready) p' := by
  unfold loopSelect at h
  split at h
  · rename_i trfds twfds high hloop
    obtain ⟨hr,hw,hsets⟩ := finishWait_spec p.aio trfds twfds high ready
    cases h
    refine facts_of_loop rfl hsets (fun h => Or.inl ?_)
    rw [hloop]
    exact (mem_of_callBacks h).imp (hr fd) (hw fd)
  · cases h

theorem facts_look (h : p.loopLook = some p') : StepFacts fd p .look p' := by
  unfold loopLook at h
  split at h
  · cases h
    exact facts_of_loop rfl ⟨rfl, rfl⟩ (fun h => absurd h id)
  · rename_i d i todo hloop
    split_ifs at h
    · cases h
      refine facts_of_loop rfl ⟨rfl, rfl⟩ (fun h => Or.inl ?_)
      rw [hloop]
      exact h
    · cases h
      refine facts_of_loop rfl ⟨rfl, rfl⟩ (fun h => Or.inl ?_)
      rw [hloop]
      exact h.imp (fun _ hmem => List.mem_cons_of_mem _ hmem)
  · cases h

theorem facts_invoke (h : p.loopInvoke = some p') : StepFacts fd p .invoke p' := by
  unfold loopInvoke at h
  split at h
  · rename_i d i todo hloop
    obtain ⟨ch,-,rfl⟩ := Option.map_eq_some_iff.mp h
    refine facts_of_loop rfl ⟨rfl, rfl⟩ (fun h => Or.inl ?_)
    rw [hloop]
    exact h
  · cases h

theorem facts_finish (h : p.loopFinish = some p') : StepFacts fd p .finish p' := by
  unfold loopFinish at h
  split at h
  · rename_i d i ch todo hloop
    cases h
    refine facts_of_loop rfl ⟨rfl, rfl⟩ (fun h => Or.inl ?_)
    rw [hloop]
    exact h.imp (fun _ hmem => List.mem_cons_of_mem _ hmem)
  · cases h

theorem step_facts (h : p.step e = some p') : StepFacts fd p e p' := by
  cases e with
  | add t i flag ch => exact facts_add h
  | addEnd t => exact facts_addEnd h
  | del t i flag => exact facts_del h
  | delEnd t => exact facts_delEnd h
  | remove t i => exact facts_remove h
  | wait t => exact facts_wait h
  | removeEnd t => exact facts_removeEnd h
  | top => exact facts_top h
  | copy => exact facts_copy h
  | select ready => exact facts_select h
  | look => exact facts_look h
  | invoke => exact facts_invoke h
  | finish => exact facts_finish h

/-- A descriptor that is gone stays so until it is added. -/
theorem Gone.step (hg : p.Gone fd) (h : p.step e = some p') (he : ¬ Adds fd e) : p'.Gone fd := by
  have hf : StepFacts fd p e p' := step_facts h
  refine ⟨hf.unwatched he hg.unwatched, fun hhandles => ?_⟩
  rcases hf.handles hhandles with hloop | hwatched
  · exact hg.loop hloop
  · exact hwatched hg.unwatched

theorem Removed.step (hr : Removed fd p) (h : p.step e = some p') (he : NoAddMeanwhile fd p e) :
    Removed fd p' := by
  have hf : StepFacts fd p e p' := step_facts h
  have hkept : (∃ t, p.stage t = .removing fd ∨ p.stage t = .waiting fd) → p'.Unwatched fd := by
    rintro ⟨t,ht⟩
    refine hf.unwatched (fun hadd => he hadd ⟨t, ?_⟩) (hr.unwatched t ht)
    exact ht.imp id Or.inl
  refine ⟨?_, ?_⟩
  · rintro t (ht | ht)
    · rcases hf.removing t ht with hold | hnow
      · exact hkept ⟨t, Or.inl hold⟩
      · exact hnow
    · exact hkept ⟨t, (hf.waiting t ht).symm⟩
  · intro t ht
    rcases hf.woken t ht with hold | ⟨hwaiting,hloop⟩
    · exact (hr.gone t hold).step h (fun hadd => he hadd ⟨t, Or.inr (Or.inr hold)⟩)
    · exact ⟨hkept ⟨t, Or.inr hwaiting⟩, hloop⟩

theorem removed_init (pipefd0 pipefd1 fd : ℕ) : Removed fd (init pipefd0 pipefd1) := by
  refine ⟨?_, fun t ht => by cases ht⟩
  rintro t (ht | ht) <;> cases ht

end

/-- In every interleaving: when `block_remove_fd` has returned, the loop is not about to call back
for its descriptor and is not in such a callback, and this stays so until somebody calls
`add_callback` for it, if nobody calls that while `block_remove_fd` is in progress. -/
theorem block_remove_guarantee {pipefd0 pipefd1 fd t : ℕ} {es fs : List PollEvent}
    {p p' q : PollMgr} (hrun : run step (init pipefd0 pipefd1) es = some p)
    (hmeets : Meets step (NoAddMeanwhile fd) (init pipefd0 pipefd1) es)
    (hstage : p.stage t = .woken fd) (hend : p.step (.removeEnd t) = some p')
    (hrest : run step p' fs = some q) (hfs : ∀ e ∈ fs, ¬ Adds fd e) :
    (∀ d todo, q.loop ≠ .called d fd todo) ∧ ∀ d ch todo, q.loop ≠ .running d fd ch todo := by
  have hremoved := hmeets.invariant (fun _ _ _ hI hC h => hI.step h hC)
    (removed_init pipefd0 pipefd1 fd) hrun
  have hgone : p'.Gone fd := (hremoved.gone t hstage).step hend id
  have hlater : q.Gone fd := Meets.invariant (I := fun p => p.Gone fd)
    (fun _ _ _ hI hC h => hI.step h hC) hgone (Meets.of_labels hfs p') hrest
  refine ⟨?_, ?_⟩
  · intro d todo hloop
    exact hlater.loop (hloop ▸ ⟨d, List.mem_cons_self⟩)
  · intro d ch todo hloop
    exact hlater.loop (hloop ▸ ⟨d, List.mem_cons_self⟩)

/-- The remover comes while the callback runs, and returns after the loop has come round. -/
theorem block_remove_here : ∃ p p' q,
    run step (init 3 4) [.add 1 5 .cbRdonly 7, .addEnd 1, .top, .copy,
      .select (some (fun i => i == 5, fun _ => false)), .look, .invoke, .remove 2 5,
        .wait 2, .finish,
      .look, .top] = some p ∧ p.stage 2 = .woken 5 ∧ p.step (.removeEnd 2) = some p' ∧
    run step p' [.copy, .select (some (fun i => i == 3, fun _ => false)), .top] = some q ∧
    (∀ d todo, q.loop ≠ .called d 5 todo) ∧ ∀ d ch todo, q.loop ≠ .running d 5 ch todo := by
  obtain ⟨p,hrun,hstage,hrest⟩ := reaches_of_any step (fun p => p.stage 2 = .woken 5 ∧
      ((p.step (.removeEnd 2)).bind fun p' => run step p'
        [.copy, .select (some (fun i => i == 3, fun _ => false)), .top]).isSome = true) (init 3 4)
    [.add 1 5 .cbRdonly 7, .addEnd 1, .top, .copy,
      .select (some (fun i => i == 5, fun _ => false)), .look, .invoke, .remove 2 5,
        .wait 2, .finish, .look, .top] (by decide +kernel)
  obtain ⟨q,hq⟩ := Option.isSome_iff_exists.mp hrest
  obtain ⟨p',hend,hrest⟩ := Option.bind_eq_some_iff.mp hq
  refine ⟨p, p', q, hrun, hstage, hend, hrest, ?_⟩
  refine block_remove_guarantee hrun ⟨?_, fun s' _ => ?_⟩ hstage hend hrest ?_
  · -- when the callback is added nobody removes anything
    rintro - ⟨t,ht | ht | ht⟩ <;> cases ht
  · refine (Meets.of_labels (p := fun e => ¬ Adds 5 e) ?_ s').mono (fun _ _ h hadd => absurd hadd h)
    simp [Adds]
  · simp [Adds]

end PollMgr

end DisconnectedYfs.RPC
