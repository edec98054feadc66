import DisconnectedYfs.YFSCallEffects
import DisconnectedYfs.YFSConflict

/-! The calls of `acquire_wo` that `lock_acquired` and the loop of `disconnect(false)` make. They
wait on the stack on which an outer `acquire_wo` has its lock `ACQUIRING`, and earlier ones have
theirs `LOCKED`; so they must be for other locks. -/
namespace DisconnectedYfs.YFS
open Std

/-- The locks that a pending call is acquiring, has, or is giving back. -/
def Call.locks : Call → List ℕ
  | .acquire lid _ | .release lid _ => [lid]
  | .resolve l stage => l :: stage.holds.map Prod.fst
  | .reconnect _ | .load _ _ _ _ => []

def stackLocks (calls : List Call) : List ℕ := calls.flatMap Call.locks

def Thread.keeps (th : Thread) : List ℕ := th.held.map Prod.fst

/-- The answer to the acquire request takes `lock_acquired` into its conflict branch. -/
def Client.conflicts (c : Client) (t : Table) (lid : ℕ) : Bool :=
  !c.disconnected && ((c.lock lid).state = .acquiring || (c.lock lid).state = .waiting) &&
    (c.lock lid).stale && c.localExtent[lid]?.any (fun e => e.dirty &&
      compareVersion e t lid = some false)

/-- There is no conflict about the directory `tmp`, nor by a thread that has its lock; the number
drawn for a copy is not that of a lock of the same thread; and `disconnect(false)` is not called
with a lock held. -/
def Sys.apart (s : Sys) : Event → Bool
  | .client A T .wake =>
    match (s.thread A T).calls with
    | .acquire lid (.reply .ok) :: _ =>
      !(s.client A).conflicts s.table lid || lid ≠ 2 && !(s.thread A T).keeps.contains 2
    | _ => true
  | .client A T (.turn a b) =>
    match (s.thread A T).calls with
    | .resolve l .draw :: rest =>
      !(stackLocks (.resolve l .draw :: rest) ++ (s.thread A T).keeps).contains
        (randNum a b ||| 0x80000000)
    | _ => true
  | .client A T .reconnect => (s.thread A T).keeps = []
  | _ => true

abbrev ApartRun (es : List Event) : Prop :=
  TraceSystem.Meets Sys.step (fun s e => s.apart e = true) Sys.init es

/-- The number of the copy, once `lock_acquired` has drawn it. -/
def Stage.copy? : Stage → Option ℕ
  | .probe n | .acquireTmp n | .copy n _ | .readTmp n _ _ | .enter n _ _ _ | .drop n _
  | .releaseTmp n => some n
  | .fetch _ caller => caller.copy?
  | _ => none

/-- What a pending call relies on about those below it, `rest`, and about the locks that the thread
holds. -/
def Call.Rests (held : List ℕ) (rest : List Call) : Call → Prop
  | .acquire lid _ => lid ∉ stackLocks rest ∧ 2 ∉ stackLocks rest ∧ (rest ≠ [] → lid ∉ held) ∧
      ∀ l r, rest = .resolve l .acquireNew :: r → lid ≠ 2
  | .resolve l stage => l ∉ stackLocks rest ∧ l ≠ 2 ∧ 2 ∉ stackLocks rest ∧ 2 ∉ held ∧
      stage.copy? ≠ some 2
  | .reconnect _ => rest = [] ∧ held = []
  | .release _ _ | .load _ _ _ _ => True

def Nested (held : List ℕ) : List Call → Prop
  | [] => True
  | f :: rest => f.Rests held rest ∧ Nested held rest

def Thread.Nested (th : Thread) : Prop := YFS.Nested th.keeps th.calls

section
variable {c c₀ c' : Client} {t t' : Table} {now : UInt32} {T lid l a b : ℕ} {r : Status}
  {rest : List Call} {m : Move} {held : List ℕ} {calls : List Call}

@[simp] theorem stackLocks_nil : stackLocks [] = [] := rfl

@[simp] theorem stackLocks_cons (f : Call) (calls : List Call) :
    stackLocks (f :: calls) = f.locks ++ stackLocks calls := rfl

/-- A thread whose stack is replaced. -/
theorem nested_setCalls (h : Nested (c.thread T).keeps calls) :
    ((c.setCalls T calls).thread T).Nested := by
  rw [thread_setCalls, if_pos rfl]
  exact h

theorem nested_empty {th : Thread} (h : th.calls = []) : th.Nested := by
  unfold Thread.Nested
  rw [h]
  trivial

/-- The result of `acquire_wo(lid)` is handed to the call below. -/
theorem acquireDone_nested (hrest : Nested (c.thread T).keeps rest) (hl : lid ∉ stackLocks rest)
    (hnew : ∀ l r, rest = .resolve l .acquireNew :: r → lid ≠ 2)
    (h : c.acquireDone t T lid r rest = .done c' t') : (c'.thread T).Nested := by
  unfold Client.acquireDone at h
  split at h
  · cases h
    apply nested_empty
    rw [thread_setLcMutex, thread_setThread, if_pos rfl]
  · rename_i l' rest'
    cases h
    apply nested_setCalls
    obtain ⟨⟨h1,h2,h3,h4,-⟩,hr⟩ := hrest
    refine ⟨⟨h1, h2, h3, h4, ?_⟩, hr⟩
    intro heq
    exact hnew l' rest' rfl (Option.some.inj heq)
  · rename_i l' n rest'
    split_ifs at h
    cases h
    apply nested_setCalls
    exact hrest
  · split_ifs at h
    cases h
    apply nested_setCalls
    exact ⟨trivial, hrest⟩
  · cases h

/-- The conflict branch is in the middle of its work after a nested `release_wo`, or it ends. -/
theorem releaseDone_nested (hrest : Nested (c.thread T).keeps rest)
    (h : c.releaseDone t T rest = .done c' t') : (c'.thread T).Nested := by
  unfold Client.releaseDone at h
  split at h
  · cases h
    apply nested_empty
    rw [thread_setLcMutex, thread_setCalls, if_pos rfl]
  · cases h
    apply nested_setCalls
    obtain ⟨⟨h1,h2,h3,h4,-⟩,hr⟩ := hrest
    exact ⟨⟨h1, h2, h3, h4, by simp [Stage.copy?]⟩, hr⟩
  · cases h
    apply nested_setCalls
    obtain ⟨⟨h1,h2,h3,h4,-⟩,hr⟩ := hrest
    exact ⟨trivial, ⟨h1, h2, h3, h4, by simp [Stage.copy?]⟩, hr⟩
  · obtain ⟨⟨h1,h2,-⟩,hr⟩ := hrest
    exact acquireDone_nested (c := c.setLock _ .locked false) hr h1 (fun _ _ _ => h2) h
  · cases h
    apply nested_setCalls
    exact hrest
  · cases h

theorem acquireCheck_nested (hn : Nested (c.thread T).keeps (.acquire lid .check :: rest))
    (h : c.acquireCheck t T lid rest = .done c' t') : (c'.thread T).Nested := by
  obtain ⟨hl,-,-,hnew⟩ := hn.1
  unfold Client.acquireCheck at h
  dsimp only at h
  split_ifs at h
  · cases h
    exact nested_setCalls hn
  · exact acquireDone_nested hn.2 hl hnew h
  · cases h
    exact nested_setCalls (c := c.setLock lid .acquiring _) hn
  · exact acquireDone_nested (c := c.setLock lid .locked _) hn.2 hl hnew h

/-- The conflict branch is entered only for a lock other than that of `tmp`, by a thread that does
not hold that one. -/
theorem lockAcquired_nested (hn : Nested (c.thread T).keeps (.acquire lid (.reply .ok) :: rest))
    (hc : c.disconnected = false) (hs : (c.lock lid).state = .acquiring ∨
      (c.lock lid).state = .waiting)
    (ha : c.conflicts t lid = true → lid ≠ 2 ∧ 2 ∉ (c.thread T).keeps)
    (h : c.lockAcquired t T lid rest = some (.done c' t')) : (c'.thread T).Nested := by
  obtain ⟨hl,h2,-,hnew⟩ := hn.1
  have hlocked : ∀ c₀ : Client, c₀.thread T = c.thread T →
      (c₀.setLock lid .locked false).acquireDone t T lid .ok rest = .done c' t' →
      (c'.thread T).Nested := by
    intro c₀ hc₀ h
    refine acquireDone_nested (c := c₀.setLock lid .locked false) ?_ hl hnew h
    rw [thread_setLock, hc₀]
    exact hn.2
  unfold Client.lockAcquired at h
  dsimp only at h
  split_ifs at h with hstale hec
  · split at h
    · exact hlocked c rfl (Option.some.inj h)
    · rename_i e he
      split_ifs at h with hdirty
      · split at h
        · cases h
        · exact hlocked c rfl (Option.some.inj h)
        · rename_i hcmp
          have hconf : c.conflicts t lid = true := by
            simp [Client.conflicts, hc, hs, hstale, he, hdirty, hcmp]
          obtain ⟨hlid,hheld⟩ := ha hconf
          cases h
          apply nested_setCalls
          exact ⟨⟨hl, hlid, h2, hheld, by simp [Stage.copy?]⟩, hn.2⟩
      · exact hlocked (c.setCache (c.localExtent.erase lid)) rfl (Option.some.inj h)
  · exact hlocked c rfl (Option.some.inj h)

theorem acquireReply_nested {r : Reply}
    (hn : Nested (c.thread T).keeps (.acquire lid (.reply r) :: rest))
    (ha : r = .ok → c.conflicts t lid = true → lid ≠ 2 ∧ 2 ∉ (c.thread T).keeps)
    (h : c.acquireReply t T lid r rest = some (.done c' t')) : (c'.thread T).Nested := by
  obtain ⟨hl,-,-,hnew⟩ := hn.1
  unfold Client.acquireReply at h
  dsimp only at h
  split_ifs at h with hoff
  · exact acquireDone_nested (c := c.setLock lid .none _) hn.2 hl hnew (Option.some.inj h)
  have hon : c.disconnected = false := Bool.not_eq_true _ ▸ hoff
  split at h
  · rename_i hs
    exact lockAcquired_nested hn hon (Or.inl hs) (ha rfl) h
  · rename_i hs
    exact lockAcquired_nested hn hon (Or.inr hs) (ha rfl) h
  · cases h
    exact nested_setCalls (c := c.setLock lid .waiting _) hn
  · cases h
    exact nested_setCalls (c := c.setLock lid .acquiring _) hn
  · exact acquireDone_nested hn.2 hl hnew (Option.some.inj h)

theorem releaseWo_nested (hn : Nested (c.thread T).keeps (.release lid .start :: rest))
    (h : c.releaseWo t now T lid rest = some (.done c' t')) : (c'.thread T).Nested := by
  unfold Client.releaseWo at h
  dsimp only at h
  split at h
  · exact releaseDone_nested (c := c.setLock lid _ _) hn.2 (Option.some.inj h)
  · split_ifs at h
    · cases h
    · split at h
      · cases h
      · cases h
        exact nested_setCalls (c := c.setCache _) hn
  · cases h

/-- A stage that leads to another one of the same copy. -/
theorem nested_stage {stage st : Stage} (hcopy : st.copy? = stage.copy?)
    (hn : Nested held (.resolve l stage :: rest)) : Nested held (.resolve l st :: rest) := by
  obtain ⟨⟨h1,h2,h3,h4,h5⟩,hr⟩ := hn
  exact ⟨⟨h1, h2, h3, h4, hcopy ▸ h5⟩, hr⟩

/-- A stage that reads an extent: it may have to be fetched first. -/
theorem withExtent_nested {stage st : Stage} {eid : ℕ} {noent : Outcome}
    {found : Client → Entry → Outcome} (hcopy : st.copy? = stage.copy?)
    (hn : Nested (c.thread T).keeps (.resolve l stage :: rest))
    (hnoent : noent = .done c' t' → (c'.thread T).Nested)
    (hfound : ∀ e, found (c.setEcMutex none) e = .done c' t' → (c'.thread T).Nested)
    (h : c.withExtent t now T l rest st eid noent found = some (.done c' t')) :
    (c'.thread T).Nested := by
  unfold Client.withExtent at h
  split_ifs at h
  split at h
  · exact hfound _ (Option.some.inj h)
  · split at h
    · exact hnoent (Option.some.inj h)
    · cases h
      apply nested_setCalls
      exact nested_stage hcopy hn

theorem randNum_ne_two (a b : ℕ) : randNum a b ||| 0x80000000 ≠ 2 := by
  have hle : 0x80000000 ≤ randNum a b ||| 0x80000000 := Nat.right_le_or
  omega

theorem resolveStep_nested {stage : Stage}
    (hn : Nested (c.thread T).keeps (.resolve l stage :: rest))
    (ha : stage = .draw → randNum a b ||| 0x80000000 ∉
      stackLocks (.resolve l .draw :: rest) ++ (c.thread T).keeps)
    (h : c.resolveStep t now T a b l rest stage = some (.done c' t')) : (c'.thread T).Nested := by
  cases stage with
  | draw =>
    cases h
    apply nested_setCalls
    have hfresh := ha rfl
    obtain ⟨⟨h1,h2,h3,h4,-⟩,hr⟩ := hn
    simp only [List.mem_append, not_or] at hfresh
    refine ⟨⟨hfresh.1, ?_, fun _ => hfresh.2, fun _ _ _ => randNum_ne_two a b⟩,
      ⟨h1, h2, h3, h4, by simp [Stage.copy?]⟩, hr⟩
    simp [Call.locks, Stage.holds, Ne.symm h2, h3]
  | probe n =>
    simp only [Client.resolveStep] at h
    refine withExtent_nested rfl hn ?_ ?_ h
    · intro hnoent
      cases hnoent
      apply nested_setCalls
      obtain ⟨⟨h1,h2,h3,h4,h5⟩,hr⟩ := hn
      have hn2 : n ≠ 2 := fun h => h5 (congrArg some h)
      have hfree : 2 ∉ stackLocks (.resolve l (.acquireTmp n) :: rest) := by
        simp [Call.locks, Stage.holds, Ne.symm h2, Ne.symm hn2, h3]
      exact ⟨⟨hfree, hfree, fun _ => h4, fun _ _ heq => by cases heq⟩, ⟨h1, h2, h3, h4, h5⟩, hr⟩
    · intro e hfound
      cases hfound
      apply nested_setCalls (c := (c.setEcMutex none).setCache _)
      obtain ⟨⟨h1,h2,h3,h4,-⟩,hr⟩ := hn
      exact ⟨trivial, ⟨h1, h2, h3, h4, by simp [Stage.copy?]⟩, hr⟩
  | copy n tmp =>
    simp only [Client.resolveStep] at h
    refine withExtent_nested rfl hn ?_ ?_ h
    · intro habort
      cases habort
    intro e hfound
    cases hfound
    apply nested_setCalls (c := (c.setEcMutex none).setCache _)
    exact nested_stage rfl hn
  | readTmp n tmp name =>
    simp only [Client.resolveStep] at h
    refine withExtent_nested rfl hn ?_ ?_ h
    · intro habort
      cases habort
    intro e hfound
    split at hfound
    · cases hfound
    · cases hfound
      apply nested_setCalls (c := (c.setEcMutex none).setCache _)
      exact nested_stage rfl hn
  | enter n tmp name dir =>
    simp only [Client.resolveStep] at h
    refine withExtent_nested rfl hn ?_ ?_ h
    · intro habort
      cases habort
    intro e hfound
    cases hfound
    apply nested_setCalls (c := (c.setEcMutex none).setCache _)
    exact nested_stage rfl hn
  | drop n tmp =>
    simp only [Client.resolveStep] at h
    split_ifs at h
    split at h
    · cases h
    · cases h
      apply nested_setCalls (c := c.setCache _)
      exact ⟨trivial, nested_stage rfl hn⟩
  | fetch buf caller =>
    simp only [Client.resolveStep] at h
    split at h
    · cases h
    · split at h
      · cases h
      · cases h
        apply nested_setCalls (c := c.setCache _)
        exact nested_stage rfl hn
  | _ => cases h

theorem reconnectLoop_nested {k : Option ℕ} (hn : Nested (c.thread T).keeps (.reconnect k :: rest))
    (h : c.reconnectLoop t T k rest = .done c' t') : (c'.thread T).Nested := by
  obtain ⟨⟨rfl,hheld⟩,-⟩ := hn
  unfold Client.reconnectLoop at h
  split at h
  · cases h
    apply nested_empty
    rw [thread_setLcMutex, thread_setCalls, if_pos rfl]
  · split_ifs at h
    · cases h
      exact nested_setCalls ⟨⟨rfl, hheld⟩, trivial⟩
    · cases h
      apply nested_setCalls
      refine ⟨⟨by simp [Call.locks], by simp [Call.locks], fun _ => ?_, fun _ _ h => by cases h⟩,
        ⟨rfl, hheld⟩, trivial⟩
      rw [hheld]
      simp

/-- Only a loop of `disconnect(false)` that is called with no lock held begins. -/
theorem turn_nested (hn : (c.thread T).Nested)
    (ha : ∀ l rest, (c.thread T).calls = .resolve l .draw :: rest → randNum a b ||| 0x80000000 ∉
      stackLocks (.resolve l .draw :: rest) ++ (c.thread T).keeps)
    (h : c.turn t now T a b = some (.done c' t')) : (c'.thread T).Nested := by
  unfold Thread.Nested at hn
  unfold Client.turn at h
  split at h
  · rename_i lid rest hcalls
    rw [hcalls] at hn
    replace h := Option.some.inj h
    unfold Client.acquireEnter at h
    dsimp only at h
    split_ifs at h
    cases h
    exact nested_setCalls hn
  · rename_i lid rest hcalls
    rw [hcalls] at hn
    exact acquireCheck_nested hn (Option.some.inj h)
  · rename_i lid rest hcalls
    rw [hcalls] at hn
    exact releaseWo_nested hn h
  · rename_i l stage rest hcalls
    rw [hcalls] at hn
    refine resolveStep_nested hn ?_ h
    rintro rfl
    exact ha l rest hcalls
  · rename_i k rest hcalls
    rw [hcalls] at hn
    exact reconnectLoop_nested hn (Option.some.inj h)
  · cases h

theorem wake_nested (hn : (c.thread T).Nested)
    (ha : ∀ lid rest, (c.thread T).calls = .acquire lid (.reply .ok) :: rest →
      c.conflicts t lid = true → lid ≠ 2 ∧ 2 ∉ (c.thread T).keeps)
    (h : c.wake t T = some (.done c' t')) : (c'.thread T).Nested := by
  unfold Thread.Nested at hn
  unfold Client.wake at h
  split at h
  · rename_i lid rest hcalls
    rw [hcalls] at hn
    cases h
    exact nested_setCalls hn
  · rename_i lid r rest hcalls
    rw [hcalls] at hn
    refine acquireReply_nested (c := c.setLcMutex (some T)) hn ?_ h
    rintro rfl
    exact ha lid rest hcalls
  · rename_i lid rest hcalls
    rw [hcalls] at hn
    split_ifs at h
    cases h
    exact nested_setCalls hn
  · rename_i lid rest hcalls
    rw [hcalls] at hn
    exact releaseDone_nested (c := (c.setLcMutex (some T)).setLock lid .none _) hn.2
      (Option.some.inj h)
  · cases h

/-- The other moves are of a thread that has no call pending but a `load`. -/
theorem access_nested {op : Access} (h : c.access t now T lid op = some (.done c' t')) :
    (c'.thread T).Nested := by
  unfold Client.access at h
  dsimp only at h
  split at h
  · cases h
  · split_ifs at h
    split at h
    · cases h
      apply nested_empty
      rw [thread_setThread, if_pos rfl]
    · split at h
      · cases h
        apply nested_empty
        rw [thread_setThread, if_pos rfl]
      · cases h
        unfold Thread.Nested
        rw [thread_setEcMutex, thread_setThread, if_pos rfl]
        exact ⟨trivial, trivial⟩

theorem move_nested {s : Sys} {A : ℕ} (hn : (s.thread A T).Nested)
    (ha : s.apart (.client A T m) = true)
    (h : (s.client A).move s.table s.now T m = some (.done c' t')) : (c'.thread T).Nested := by
  cases m with
  | callAcquire lid =>
    simp only [Client.move] at h
    split_ifs at h
    cases h
    apply nested_setCalls
    exact ⟨⟨by simp, by simp, fun h => absurd rfl h, fun _ _ h => by cases h⟩, trivial⟩
  | callRelease lid unlink =>
    simp only [Client.move] at h
    split at h
    · cases h
    · by_cases hcalls : (((s.client A).thread T).calls = [] && (s.client A).lcMutex = none &&
          (!unlink || isfile lid && ((s.client A).thread T).unlinking = none)) = true
      · rw [if_pos hcalls] at h
        cases h
        unfold Thread.Nested
        rw [thread_setLcMutex, thread_setThread, if_pos rfl]
        exact ⟨trivial, trivial⟩
      · rw [if_neg hcalls] at h
        cases h
  | turn a b =>
    simp only [Client.move] at h
    split_ifs at h
    refine turn_nested hn ?_ h
    intro l rest hcalls hmem
    have hcalls' : (s.thread A T).calls = .resolve l .draw :: rest := hcalls
    simp only [Sys.apart, hcalls', Bool.not_eq_true', List.contains_eq_mem, decide_eq_false_iff_not]
      at ha
    exact ha hmem
  | wake =>
    simp only [Client.move] at h
    split_ifs at h
    refine wake_nested hn ?_ h
    intro lid rest hcalls hconf
    have hcalls' : (s.thread A T).calls = .acquire lid (.reply .ok) :: rest := hcalls
    have hkeeps : ((s.client A).thread T).keeps = (s.thread A T).keeps := rfl
    rw [hkeeps]
    simpa [Sys.apart, hcalls', hconf] using ha
  | access lid op => exact access_nested h
  | loadAttr =>
    simp only [Client.move, Client.loadAttr] at h
    split at h
    · split at h
      · cases h
      · cases h
        apply nested_empty
        rw [thread_setEcMutex, thread_setThread, if_pos rfl]
    · cases h
  | put lid buf =>
    simp only [Client.move] at h
    split at h
    · cases h
    · split_ifs at h
      cases h
      exact hn
  | unlinkRemove lid =>
    simp only [Client.move] at h
    split_ifs at h
    split at h
    · cases h
    · cases h
      apply nested_empty
      rw [thread_setThread, if_pos rfl]
  | reconnect =>
    simp only [Client.move] at h
    split_ifs at h
    replace h := Option.some.inj h
    unfold Client.reconnect at h
    split_ifs at h
    cases h
    have hheld : ((s.client A).thread T).keeps = [] := of_decide_eq_true ha
    unfold Thread.Nested
    rw [thread_setLcMutex, thread_setCalls, if_pos rfl]
    exact ⟨⟨rfl, hheld⟩, trivial⟩

end

section
variable {s s' : Sys} {e : Event}

theorem nested_bottomed {held : List ℕ} {calls : List Call} (hn : Nested held calls) :
    Bottomed calls := by
  intro pre k rest hcalls
  subst hcalls
  induction pre with
  | nil => exact hn.1.1
  | cons f pre ih => exact ih hn.2

/-- The server's steps and handlers leave the locks of a stack as they are. -/
theorem served_nested {th th' : Thread} (h : th.Served th') (hn : th.Nested) : th'.Nested := by
  cases h with
  | same => exact hn
  | acquire => exact hn
  | release => exact hn

theorem step_nested (h : s.step e = some s') (ha : s.apart e = true)
    (hn : ∀ A T, (s.thread A T).Nested) (A T : ℕ) : (s'.thread A T).Nested := by
  -- a step that changes no stack of client `B`
  have hsame : ∀ B c', (∀ U, Client.thread c' U = s.thread B U) →
      (((s.setClient B c').client A).thread T).Nested := by
    intro B c' hc'
    rw [client_setClient]
    split_ifs with hB
    · subst hB
      rw [hc']
      exact hn B T
    · exact hn A T
  cases e with
  | client B U m =>
    simp only [Sys.step] at h
    split_ifs at h
    split at h
    · cases h
    · rename_i c' t' hmove
      cases h
      have hmoved := move_moved (nested_bottomed (hn B U)) hmove
      change (((s.setClient B c').client A).thread T).Nested
      rw [client_setClient]
      split_ifs with hB
      · subst hB
        by_cases hU : T = U
        · subst hU
          exact move_nested (hn B T) ha hmove
        · rw [hmoved.others T hU]
          exact hn B T
      · exact hn A T
    · cases h
      exact hsame B _ (fun _ => rfl)
    · cases h
      exact hn A T
  | disconnect B =>
    replace h := of_server_up h
    unfold Sys.disconnect at h
    dsimp only at h
    split_ifs at h
    cases h
    exact hsame B _ (fun _ => rfl)
  | _ => exact served_nested ((message_step rfl (by simp) h).thread A T) (hn A T)

theorem nested_run {es : List Event} (ha : ApartRun es) (hrun : Sys.run es = some s) (A T : ℕ) :
    (s.thread A T).Nested := by
  have hall : ∀ A T, (s.thread A T).Nested := by
    refine TraceSystem.Meets.invariant (I := fun s => ∀ A T, (s.thread A T).Nested) ?_ ?_ ha hrun
    · intro s e s' hn ha h
      exact step_nested h ha hn
    · intro A T
      exact nested_empty rfl
  exact hall A T

/-- A nested `acquire_wo` is never for a lock of the calls below it, nor for one that the thread
holds. -/
theorem nested_acquire_apart {es : List Event} (ha : ApartRun es) (hrun : Sys.run es = some s)
    {A T lid : ℕ} {pc : AcquirePc} {rest : List Call}
    (hcalls : (s.thread A T).calls = .acquire lid pc :: rest) (hrest : rest ≠ []) :
    lid ∉ stackLocks rest ∧ lid ∉ (s.thread A T).keeps := by
  have hn := nested_run ha hrun A T
  unfold Thread.Nested at hn
  rw [hcalls] at hn
  obtain ⟨⟨hl,-,hheld,-⟩,-⟩ := hn
  exact ⟨hl, hheld hrest⟩

end

/-- An extent is changed by client 0 while it is offline and by client 1 at the same time. Client 0
comes back, and `lock_acquired` enters its conflict branch. -/
def conflict (l : ℕ) : List Event :=
  acquires 1 0 l ++ reads 1 0 l ++ writes 1 0 l [2] ++ releases 1 0 l ++ asks 0 0 l ++
    steals 0 0 l ++ [.client 0 0 .wake] ++ reads 0 0 l ++ [.client 0 0 .loadAttr] ++
    writes 0 0 l [3] ++ releases 0 0 l ++ [.disconnect 0] ++ acquires 1 0 l ++ reads 1 0 l ++
    [.client 1 0 .loadAttr] ++ writes 1 0 l [4] ++ releases 1 0 l ++ reconnects 0 1 ++
    steals 0 1 l ++ [.client 0 1 .wake]

/-- The number drawn for the copy is 7 or'ed with the bit of files. -/
theorem copy_acquired_apart :
    ∃ s, Sys.run (conflict 0x80000005 ++ [.client 0 1 (.turn 0 7)]) = some s ∧
    (s.thread 0 1).calls = [.acquire 0x80000007 .start, .resolve 0x80000005 .acquireNew,
      .reconnect (some 0x80000005)] ∧
    0x80000007 ∉ stackLocks [.resolve 0x80000005 .acquireNew, .reconnect (some 0x80000005)] := by
  obtain ⟨s,hrun,hcalls⟩ := run_reaches (P := fun s => (s.thread 0 1).calls =
    [.acquire 0x80000007 .start, .resolve 0x80000005 .acquireNew, .reconnect (some 0x80000005)])
    (show (Sys.run (conflict 0x80000005 ++ [.client 0 1 (.turn 0 7)])).any _ = true by
      decide +kernel)
  exact ⟨s, hrun, hcalls, (nested_acquire_apart (by decide +kernel) hrun hcalls (by simp)).1⟩

/-- A conflict about the directory `tmp` itself: the copy has its number, and `lock_acquired` asks
for the lock that the `acquire_wo` below it has put in `ACQUIRING`. It waits for itself. -/
theorem tmp_conflict_waits : ∃ s, Sys.run (conflict 2 ++ [.client 0 1 (.turn 0 7),
      .client 0 1 (.turn 0 0), .client 0 1 (.turn 0 0), .serve 0 1, .client 0 1 .wake,
      .client 0 1 (.turn 0 0), .client 0 1 (.turn 0 0), .client 0 1 (.turn 0 0)]) = some s ∧
    (s.thread 0 1).calls = [.acquire 2 .waiting, .resolve 2 (.acquireTmp 0x80000007),
      .reconnect (some 2)] ∧ s.lockState 0 2 = .acquiring ∧
    2 ∈ stackLocks [.resolve 2 (.acquireTmp 0x80000007), .reconnect (some 2)] := by
  obtain ⟨s,hrun,hcalls,hlock⟩ := run_reaches (P := fun s => (s.thread 0 1).calls =
      [.acquire 2 .waiting, .resolve 2 (.acquireTmp 0x80000007), .reconnect (some 2)] ∧
        s.lockState 0 2 = .acquiring)
    (show (Sys.run (conflict 2 ++ [.client 0 1 (.turn 0 7), .client 0 1 (.turn 0 0),
      .client 0 1 (.turn 0 0), .serve 0 1, .client 0 1 .wake, .client 0 1 (.turn 0 0),
      .client 0 1 (.turn 0 0), .client 0 1 (.turn 0 0)])).any _ = true by decide +kernel)
  exact ⟨s, hrun, hcalls, hlock, by decide⟩

end DisconnectedYfs.YFS
