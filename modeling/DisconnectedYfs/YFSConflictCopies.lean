import DisconnectedYfs.YFSConflictBranch
import DisconnectedYfs.YFSCallEffects
import DisconnectedYfs.YFSWriteBack

/-! Both versions are kept: the runs of the conflict branch, from the answer with which
`lock_acquired` enters it until it returns, while the other clients go on. -/
namespace DisconnectedYfs.YFS
open Std

/-- The next step of thread `T` enters the conflict branch of `lock_acquired(lid)`: the lock has
been granted and is stale, the cached copy `e` is dirty, and the server has a later version `g`. -/
structure Client.Conflicted (c : Client) (t : Table) (T lid : ℕ) (e : Entry) (g : FInfo)
    (rest : List Call) : Prop where
  calls : (c.thread T).calls = .acquire lid (.reply .ok) :: rest
  caller : AcquireCaller rest
  online : c.disconnected = false
  acquires : (c.lock lid).Acquires
  stale : (c.lock lid).stale = true
  copy : c.localExtent[lid]? = some e
  dirty : e.dirty = true
  extent : t[lid]? = some g
  later : e.attr.version < g.a.version

/-- No other thread of client `A` moves, no revoke comes for a lock of `A`, and `A` stays
connected. -/
def Sys.leftAlone (s : Sys) (A T : ℕ) : Event → Bool
  | .client B U _ => B ≠ A || U = T
  | .revoke B U | .revoked B U => !(s.thread B U).calls.head?.any (Call.revokes A)
  | .disconnect B => B ≠ A
  | _ => true

/-- No other client flushes the extent `lid`, nor one whose lock client `A` has. -/
def Sys.unflushed (s : Sys) (A lid : ℕ) (e : Event) : Bool :=
  (s.flush? e).all (fun p => p.1 = A || p.2 ≠ lid && ((s.client A).lock p.2).state ≠ .locked)

/-- Client `A` gets no lock about which there is another conflict. -/
def Sys.unopposed (s : Sys) (A : ℕ) : Event → Bool
  | .client B U .wake =>
    match (s.thread B U).calls with
    | .acquire l (.reply .ok) :: _ => B ≠ A || (s.client A).current s.table l
    | _ => true
  | _ => true

/-- When `make_copy` begins, `tmp` is the directory `d`. -/
def Sys.tmpIs (s : Sys) (A T : ℕ) (d : Dir) : Bool :=
  match (s.thread A T).calls with
  | .resolve _ (.copy _ tmp) :: _ => (s.client A).localExtent.sees s.table tmp = some d.toStr
  | _ => true

/-- The steps of a run of the conflict branch for `lid` of thread `T` of client `A`. -/
def Resolving (A T lid : ℕ) (rest : List Call) (d : Dir) (s : Sys) (e : Event) : Bool :=
  (s.thread A T).resolves lid rest && s.leftAlone A T e && s.unflushed A lid e &&
    s.unopposed A e && s.tmpIs A T d

/-- Both versions are kept. The client's is in the extent `n`, for which `tmp` has one entry more
than `d` had, under a name that `d` did not have; the client has the lock of `lid`, and reads the
server's version there. -/
structure Client.BothKept (c : Client) (t : Table) (lid : ℕ) (e : Entry) (g : FInfo) (d : Dir)
    (n k : ℕ) : Prop where
  other : n ≠ lid
  copy : c.localExtent.Changed n e.extent
  fresh : d[copyName e.attr.name k]? = none
  entered : ∃ dir, c.localExtent.Changed 2 dir ∧
    parseDir dir = some (d.insert (copyName e.attr.name k) n)
  lock : c.lock lid = ⟨.locked, false⟩
  next : ∀ now, ∃ x, Store.exec ⟨c.localExtent, t⟩ lid (.get now) = some (x, .buf g.buf)

/-- Nothing changes but stacks, and acquire requests that are told to retry. -/
structure Client.Beside (c c' : Client) : Prop where
  online : c'.disconnected = c.disconnected
  alive : c'.aborted = c.aborted
  mutex : c'.lcMutex = c.lcMutex
  ec : c'.ecMutex = c.ecMutex
  cache : c'.localExtent = c.localExtent
  lock : ∀ l, c'.lock l = c.lock l ∨ (c.lock l).Acquires ∧ (c'.lock l).Acquires

section
variable {c c' : Client} {t t' : Table} {T lid n : ℕ} {rest front : List Call}
    {e : Entry} {g : FInfo}
  {d : Dir} {m : Cache} {lock lock' : ℕ → LockState}

/-- The wake with which the branch begins. -/
theorem conflicted_enters {o : Outcome} (hc : c.Conflicted t T lid e g rest)
    (hal : c.aborted = false) (h : c.wake t T = some o) :
    ∃ c', o = .done c' t ∧ c'.Amid t T lid e g d rest [.resolve lid .draw] := by
  have hcmp : compareVersion e t lid = some false := by
    have hle := UInt32.le_of_lt hc.later
    have hne : g.a.version ≠ e.attr.version := fun heq => UInt32.lt_irrefl _ (heq ▸ hc.later)
    simp [compareVersion, Table.getattr, hc.extent, hle, hne]
  have hacq : (c.setLcMutex (some T)).lockAcquired t T lid rest = some o := by
    unfold Client.wake at h
    rw [hc.calls] at h
    simp only [Client.acquireReply, offline_setLcMutex, hc.online, Bool.false_eq_true, if_false,
      lock_setLcMutex] at h
    obtain hs | hs := hc.acquires
    · rw [hs] at h
      exact h
    · rw [hs] at h
      exact h
  unfold Client.lockAcquired at hacq
  simp only [lock_setLcMutex, hc.stale, if_true, cache_setLcMutex, hc.copy, hc.dirty, hcmp] at hacq
  split_ifs at hacq with hfree
  cases hacq
  refine ⟨_, rfl, ?_, fun _ => rfl, hc.online, hal, hfree, hc.acquires, hc.extent,
    .draw ⟨e, hc.copy, rfl, rfl⟩⟩
  simp

theorem Client.Beside.held {l : ℕ} (h : c.Beside c') (hl : c.lock l = ⟨.locked, false⟩) :
    c'.lock l = ⟨.locked, false⟩ := by
  obtain heq | ⟨hacq,-⟩ := h.lock l
  · exact heq.trans hl
  · rw [hl] at hacq
    obtain h | h := hacq <;> cases h

theorem Client.Beside.acquires {l : ℕ} (h : c.Beside c') (hl : (c.lock l).Acquires) :
    (c'.lock l).Acquires := by
  obtain heq | ⟨-,hacq⟩ := h.lock l
  · rw [heq]
    exact hl
  · exact hacq

/-- What is known at a point lasts as long as the locks of the branch are held. -/
theorem At.beside (h : At m lock t lid e d front)
    (hheld : ∀ l, lock l = ⟨.locked, false⟩ → lock' l = ⟨.locked, false⟩ ∧ t'[l]? = t[l]?)
    (hacq : ∀ l, (lock l).Acquires → (lock' l).Acquires) : At m lock' t' lid e d front := by
  have hnew : ∀ {n}, NewLid lock lid n → NewLid lock' lid n :=
    fun hn => ⟨hn.drawn, hn.other, (hheld _ hn.held).1⟩
  cases h with
  | draw hk => exact .draw hk
  | acquireNew hk hn hpc => exact .acquireNew hk hn (fun hp => ⟨(hpc hp).1, hacq _ (hpc hp).2⟩)
  | probe hk hn => exact .probe hk (hnew hn)
  | fetchNew hk hn hf => exact .fetchNew hk (hnew hn) ((hheld _ hn.held).2.trans hf)
  | releaseNew hk hn => exact .releaseNew hk (hnew hn)
  | acquireTmp hk hn hpc => exact .acquireTmp hk (hnew hn) (fun hp => hacq _ (hpc hp))
  | copy hk hn h2 => exact .copy hk (hnew hn) (hheld 2 h2).1
  | readTmp hk hn h2 hc hd =>
    refine .readTmp hk (hnew hn) (hheld 2 h2).1 hc ?_
    unfold Cache.sees at hd ⊢
    rw [(hheld 2 h2).2]
    exact hd
  | fetchTmp hk hn h2 hc hf =>
    exact .fetchTmp hk (hnew hn) (hheld 2 h2).1 hc ((hheld 2 h2).2.trans hf)
  | enter hk hn h2 hc hname hfree hdir =>
    exact .enter hk (hnew hn) (hheld 2 h2).1 hc hname hfree hdir
  | drop hk hn h2 hc hfree hd => exact .drop hk (hnew hn) (hheld 2 h2).1 hc hfree hd
  | releaseTmp hgone hn h2 hc hfree hd =>
    exact .releaseTmp hgone (hnew hn) (hheld 2 h2).1 hc hfree hd
  | releaseCopy hgone hn hc hfree hd => exact .releaseCopy hgone (hnew hn) hc hfree hd

/-- A request that moves on at the server. -/
theorem At.served {l : ℕ} {pc pc' : AcquirePc} {calls : List Call}
    (h : At m lock t lid e d (.acquire l pc :: calls)) (hpc : pc.asked = true) :
    At m lock t lid e d (.acquire l pc' :: calls) := by
  cases h with
  | acquireNew hk hn hacq => exact .acquireNew hk hn (fun _ => hacq hpc)
  | acquireTmp hk hn hacq => exact .acquireTmp hk hn (fun _ => hacq hpc)

end

section
variable {s s' : Sys} {ev : Event} {A B T U lid n : ℕ} {rest front : List Call}
    {e : Entry} {g : FInfo}
  {d : Dir}

theorem beside_refl (c : Client) : c.Beside c := ⟨rfl, rfl, rfl, rfl, rfl, fun _ => Or.inl rfl⟩

theorem beside_setCalls (calls : List Call) :
    (s.client A).Beside ((s.setCalls B U calls).client A) := by
  rw [client_setCalls]
  split_ifs with hB
  · subst hB
    exact ⟨rfl, rfl, rfl, rfl, rfl, fun _ => Or.inl rfl⟩
  · exact beside_refl _

/-- A handler's answer at another client. -/
theorem beside_answer {o : ℕ} (ho : o ≠ A) (c' : Client) (calls : List Call) :
    (s.client A).Beside (((s.setClient o c').setCalls B U calls).client A) := by
  have hsame : (s.setClient o c').client A = s.client A := by
    rw [client_setClient, if_neg ho]
  have h := beside_setCalls (s := s.setClient o c') (A := A) (B := B) (U := U) calls
  rw [hsame] at h
  exact h

theorem beside_serveRelease {l id : ℕ} (calls : List Call) :
    (s.client A).Beside ((s.serveRelease l id B U calls).client A) := by
  by_cases ho : (s.lockTable.info l).owner = some id
  · rw [serveRelease_owner ho]
    exact beside_setCalls calls
  · rw [serveRelease_other ho]
    exact beside_refl _

theorem other_client {m : Move} (hB : B ≠ A) (h : s.step (.client B U m) = some s') :
    s'.client A = s.client A := by
  have hsame : ∀ c', (s.setClient B c').client A = s.client A := by
    intro c'
    rw [client_setClient, if_neg hB]
  simp only [Sys.step] at h
  split_ifs at h
  split at h
  · cases h
  · cases h
    exact hsame _
  · cases h
    exact hsame _
  · cases h
    rfl

theorem moves_elsewhere {m : Move} (ha : s.leftAlone A T (.client B U m) = true)
    (hev : ∀ m', Event.client B U m ≠ .client A T m') : B ≠ A := by
  rintro rfl
  have hU : U = T := by simpa [Sys.leftAlone] using ha
  exact hev m (hU ▸ rfl)

/-- What another thread's move, a server or a handler leaves of the client. -/
theorem beside_step (h : s.step ev = some s') (ha : s.leftAlone A T ev = true)
    (hev : ∀ m, ev ≠ .client A T m) : (s.client A).Beside (s'.client A) := by
  cases ev with
  | client B U m =>
    rw [other_client (moves_elsewhere ha hev) h]
    exact beside_refl _
  | serve B U =>
    replace h := of_server_up h
    unfold Sys.serve at h
    split at h
    · cases h
      exact beside_setCalls _
    · cases h
      exact beside_serveRelease _
    · cases h
  | revoke B U =>
    obtain ⟨l,o,calls,hcalls,hs⟩ := revoke_cases (of_server_up h)
    have ho : o ≠ A := by simpa [Sys.leftAlone, hcalls, Call.revokes] using ha
    obtain ⟨-,rfl⟩ | ⟨-,st,-,rfl⟩ | ⟨-,-,⟨-,rfl⟩ | ⟨c,t,-,rfl⟩⟩ := hs
    · exact beside_refl _
    · exact beside_answer ho _ _
    · exact beside_refl _
    · exact beside_answer ho _ _
  | serveRevoked B U =>
    replace h := of_server_up h
    unfold Sys.serveRevoked at h
    split at h
    · cases h
      exact beside_serveRelease _
    · cases h
  | revoked B U =>
    replace h := of_server_up h
    unfold Sys.revoked at h
    split at h
    · rename_i l o calls hcalls
      dsimp only at h
      split_ifs at h
      cases h
      have ho : o ≠ A := by simpa [Sys.leftAlone, hcalls, Call.revokes] using ha
      exact beside_answer ho _ _
    · cases h
  | retry l B =>
    obtain ⟨-,⟨-,rfl⟩ | ⟨-,st,hst,rfl⟩⟩ := retry_cases (of_server_up h)
    · exact beside_refl _
    · change (s.client A).Beside ((s.setClient B _).client A)
      rw [client_setClient]
      split_ifs with hB
      · subst hB
        refine ⟨rfl, rfl, rfl, rfl, rfl, fun j => ?_⟩
        rw [lock_setLock]
        split_ifs with hj
        · subst hj
          obtain ⟨hs,rfl⟩ | ⟨hs,rfl⟩ | ⟨-,-,rfl⟩ := hst
          · exact Or.inr ⟨Or.inl hs, Or.inr rfl⟩
          · exact Or.inr ⟨Or.inr hs, Or.inl rfl⟩
          · exact Or.inl rfl
        · exact Or.inl rfl
      · exact beside_refl _
  | disconnect B =>
    have hB : B ≠ A := by simpa [Sys.leftAlone] using ha
    replace h := of_server_up h
    unfold Sys.disconnect at h
    dsimp only at h
    split_ifs at h
    cases h
    change (s.client A).Beside ((s.setClient B _).client A)
    rw [client_setClient, if_neg hB]
    exact beside_refl _
  | clock now =>
    cases h
    exact beside_refl _

/-- The thread's stack stays, or its request moves on. -/
theorem stack_step (h : s.step ev = some s') (ha : s.leftAlone A T ev = true)
    (hev : ∀ m, ev ≠ .client A T m) :
    (s'.thread A T).calls = (s.thread A T).calls ∨
    (∃ l pc pc' calls, (s.thread A T).calls = .acquire l pc :: calls ∧ pc.asked = true ∧
      (s'.thread A T).calls = .acquire l pc' :: calls ∧ pc'.asked = true) ∨
    ∃ l pc calls, (s.thread A T).calls = .release l pc :: calls ∧ pc ≠ .start := by
  have hmessage : (∀ B U m, ev ≠ .client B U m) → (∀ B, ev ≠ .disconnect B) →
      (s'.thread A T).calls = (s.thread A T).calls ∨
      (∃ l pc pc' calls, (s.thread A T).calls = .acquire l pc :: calls ∧ pc.asked = true ∧
        (s'.thread A T).calls = .acquire l pc' :: calls ∧ pc'.asked = true) ∨
      ∃ l pc calls, (s.thread A T).calls = .release l pc :: calls ∧ pc ≠ .start := by
    intro hc hd
    have hinner : ev.isInner = true := by
      cases ev with
      | client B U m => exact absurd rfl (hc B U m)
      | disconnect B => exact absurd rfl (hd B)
      | _ => rfl
    have hserved := (message_step hinner hc h).thread A T
    have hasked : ∀ {l pc}, (Call.acquire l pc).remote = true → pc.asked = true := by
      intro l pc hr
      cases pc <;> first | rfl | cases hr
    obtain hsame | ⟨f,f',calls,hcalls,hcalls',hf,hf'⟩ | ⟨m,hm,-⟩ :=
      (message_effect hc h).thread_cases A T
    · exact Or.inl (congrArg Thread.calls hsame)
    · generalize s.thread A T = th at *
      generalize s'.thread A T = th' at *
      cases hserved with
      | same => exact Or.inl rfl
      | @acquire l pc _ _ _ pc' =>
        cases hcalls
        cases hcalls'
        exact Or.inr (Or.inl ⟨l, pc, pc', calls, rfl, hasked hf, rfl, hasked hf'⟩)
      | @release l pc _ _ _ pc' =>
        cases hcalls
        refine Or.inr (Or.inr ⟨l, pc, calls, rfl, ?_⟩)
        rintro rfl
        cases hf
    · exact absurd hm (hc A T m)
  cases ev with
  | client B U m =>
    left
    unfold Sys.thread
    rw [other_client (moves_elsewhere ha hev) h]
  | disconnect B =>
    left
    cases disconnect_effect (of_server_up h) with
    | stays hthread => exact congrArg Thread.calls (hthread A T)
    | disconnect hthread _ => exact congrArg Thread.calls (hthread A T)
    | served _ he => rcases he with ⟨he,-⟩ | ⟨he,-⟩ <;> cases he
  | _ => exact hmessage (by simp) (by simp)

/-- The extents that matter are not flushed by others. -/
theorem table_step (h : s.step ev = some s') (ha : s.leftAlone A T ev = true)
    (hf : s.unflushed A lid ev = true) (hev : ∀ m, ev ≠ .client A T m) {l : ℕ}
    (hl : l = lid ∨ ((s.client A).lock l).state = .locked) : s'.table[l]? = s.table[l]? := by
  have hnone : ∀ B, s.flush? ev ≠ some (B, l) := by
    intro B hflush
    have hB : B = A := by
      simp only [Sys.unflushed, hflush, Option.all_some, Bool.or_eq_true, decide_eq_true_eq,
        Bool.and_eq_true] at hf
      refine hf.resolve_right ?_
      rintro ⟨h1,h2⟩
      exact hl.elim h1 h2
    subst hB
    cases ev with
    | client C U m =>
      obtain ⟨l',-,heq⟩ := Option.map_eq_some_iff.mp hflush
      exact moves_elsewhere ha hev (congrArg Prod.fst heq)
    | revoke C U =>
      simp only [Sys.flush?] at hflush
      split at hflush
      · rename_i hcalls
        split_ifs at hflush
        cases hflush
        simp [Sys.leftAlone, hcalls, Call.revokes] at ha
      · cases hflush
    | _ => cases hflush
  obtain hc | ⟨B,-,hflush,-⟩ := step_copies h A l
  · unfold Sys.Copies at hc
    generalize (s.client A).localExtent[l]? = cp at hc
    generalize (s'.client A).localExtent[l]? = cp' at hc
    generalize hx : s.table[l]? = x at hc
    generalize hx' : s'.table[l]? = x' at hc
    cases hc with
    | flush hflush => exact absurd hflush (hnone A)
    | _ => rfl
  · exact absurd hflush (hnone B)

/-- Thread `T` of client `A` is in its conflict branch. -/
def Sys.Amid (s : Sys) (A T lid : ℕ) (e : Entry) (g : FInfo) (d : Dir) (rest : List Call) : Prop :=
  ∃ front, (s.client A).Amid s.table T lid e g d rest front

/-- The steps that are not the thread's own. -/
theorem amid_beside (hI : s.Amid A T lid e g d rest) (h : s.step ev = some s')
    (ha : s.leftAlone A T ev = true) (hf : s.unflushed A lid ev = true)
    (hev : ∀ m, ev ≠ .client A T m) : s'.Amid A T lid e g d rest := by
  obtain ⟨front,hfront⟩ := hI
  have hb := beside_step h ha hev
  have htable := fun l hl => table_step (l := l) h ha hf hev hl
  have hpoint : At (s.client A).localExtent (s'.client A).lock s'.table lid e d front :=
    hfront.point.beside (fun l hl => ⟨hb.held hl, htable l (Or.inr (congrArg LockState.state hl))⟩)
      (fun l hl => hb.acquires hl)
  have hmake : ∀ {k}, (s'.thread A T).calls = k ++ rest →
      (k.head?.any Call.running = true → front.head?.any Call.running = true) →
      At (s.client A).localExtent (s'.client A).lock s'.table lid e d k →
      s'.Amid A T lid e g d rest := by
    intro k hcalls hrun hat
    refine ⟨k, hcalls, ?_, hb.online.trans hfront.online, hb.alive.trans hfront.alive, ?_,
      hb.acquires hfront.acquires, (htable lid (Or.inl rfl)).trans hfront.extent, ?_⟩
    · intro hr
      exact hb.mutex.trans (hfront.mutex (hrun hr))
    · unfold Client.ecFree
      rw [hb.ec]
      exact hfront.free
    · rw [hb.cache]
      exact hat
  obtain hsame | ⟨l,pc,pc',calls,hcalls,hasked,hcalls',hasked'⟩ | ⟨l,pc,calls,hcalls,hpc⟩ :=
    stack_step h ha hev
  · exact hmake (hsame.trans hfront.calls) id hpoint
  · have hfirst : front ++ rest = .acquire l pc :: calls := hfront.calls.symm.trans hcalls
    rcases front with _ | ⟨f,front⟩
    · cases hpoint
    · cases hfirst
      exact hmake (k := .acquire l pc' :: front) hcalls'
        (fun hr => running_of_asked hasked' hr) (hpoint.served hasked)
  · have hfirst : front ++ rest = .release l pc :: calls := hfront.calls.symm.trans hcalls
    cases hpoint <;> cases hfirst <;> exact absurd rfl hpc

/-- A thread in the branch only takes its turns and wakes. -/
theorem Client.Amid.move {c : Client} {t : Table} {now : UInt32} {m : Move} {o : Outcome}
    (hlid : lid ≠ 2) (hd : d.Wf) (hcaller : AcquireCaller rest)
    (hI : c.Amid t T lid e g d rest front)
    (htmp : ∀ n, front = [.resolve lid (.copy n 2)] → c.localExtent.sees t 2 = some d.toStr)
    (hcur : ∀ l calls, m = .wake → (c.thread T).calls = .acquire l (.reply .ok) :: calls →
      c.current t l = true)
    (h : c.move t now T m = some o) :
    ∃ c', o = .done c' t ∧
      ((∃ front', c'.Amid t T lid e g d rest front') ∨ c'.Left t T lid e g d rest) := by
  have hne : (c.thread T).calls ≠ [] := by
    rw [hI.calls]
    cases hI.point <;> simp
  have hidle : (c.thread T).idle = false := by
    simp [Thread.idle, hne]
  cases m with
  | turn a b =>
    simp only [Client.move] at h
    split_ifs at h with hx
    by_cases hrun : front.head?.any Call.running = true
    · obtain ⟨c',hc',hgoes⟩ := hI.turn (w := now) (a := a) (b := b) hlid hd hcaller hrun htmp
      cases hc'.symm.trans h
      exact ⟨c', rfl, hgoes⟩
    · -- the thread sleeps, or waits for an answer
      exfalso
      unfold Client.turn at h
      rw [hI.calls] at h
      cases hI.point with
      | @acquireNew n pc => cases pc <;> first | exact hrun rfl | cases h
      | @acquireTmp n pc => cases pc <;> first | exact hrun rfl | cases h
      | _ => exact hrun rfl
  | wake =>
    simp only [Client.move] at h
    split_ifs at h
    obtain ⟨c',front',rfl,hgoes⟩ := hI.wake hlid (fun l calls => hcur l calls rfl) h
    exact ⟨c', rfl, Or.inl ⟨front', hgoes⟩⟩
  | callAcquire l => simp [Client.move, hidle] at h
  | callRelease l u =>
    simp only [Client.move, hne, decide_false, Bool.false_and, Bool.false_eq_true, if_false] at h
    split at h <;> cases h
  | access l op =>
    simp only [Client.move, Client.access, hidle, Bool.false_and, Bool.false_eq_true, if_false] at h
    split at h <;> cases h
  | loadAttr =>
    simp only [Client.move, Client.loadAttr] at h
    split at h
    · rename_i hcalls
      rw [hI.calls] at hcalls
      cases hI.point <;> cases hcalls
    · cases h
  | put l buf =>
    simp only [Client.move, hidle, Bool.false_and, Bool.false_eq_true, if_false] at h
    split at h <;> cases h
  | unlinkRemove l => simp [Client.move, hne] at h
  | reconnect => simp [Client.move, hidle] at h

theorem resolving_step (hlid : lid ≠ 2) (hd : d.Wf) (hcaller : AcquireCaller rest)
    (hI : s.Amid A T lid e g d rest ∨ (s.client A).Left s.table T lid e g d rest)
    (hr : Resolving A T lid rest d s ev = true) (h : s.step ev = some s') :
    s'.Amid A T lid e g d rest ∨ (s'.client A).Left s'.table T lid e g d rest := by
  simp only [Resolving, Bool.and_eq_true] at hr
  obtain ⟨⟨⟨⟨hamid,ha⟩,hf⟩,ho⟩,htmp⟩ := hr
  replace hI := hI.resolve_right (fun hl => by
    have := hl.left
    rw [show (s.client A).thread T = s.thread A T from rfl, hamid] at this
    cases this)
  by_cases hev : ∃ m, ev = .client A T m
  · obtain ⟨m,rfl⟩ := hev
    obtain ⟨front,hfront⟩ := hI
    have htmp' : ∀ n, front = [.resolve lid (.copy n 2)] →
        (s.client A).localExtent.sees s.table 2 = some d.toStr := by
      rintro n rfl
      have hcalls : (s.thread A T).calls = .resolve lid (.copy n 2) :: rest := hfront.calls
      simpa [Sys.tmpIs, hcalls] using htmp
    have hcur : ∀ l calls, m = .wake → ((s.client A).thread T).calls =
        .acquire l (.reply .ok) :: calls → (s.client A).current s.table l = true := by
      rintro l calls rfl hcalls
      have hcalls' : (s.thread A T).calls = .acquire l (.reply .ok) :: calls := hcalls
      simpa [Sys.unopposed, hcalls'] using ho
    simp only [Sys.step] at h
    split_ifs at h
    rcases hmove : (s.client A).move s.table s.now T m with _ | o
    · rw [hmove] at h
      cases h
    · obtain ⟨c',rfl,hgoes⟩ := hfront.move hlid hd hcaller htmp' hcur hmove
      rw [hmove] at h
      cases h
      have hclient : Sys.client { s.setClient A c' with table := s.table } A = c' :=
        (client_setClient s A A c').trans (if_pos rfl)
      unfold Sys.Amid
      rw [hclient]
      exact hgoes
  · exact Or.inl (amid_beside hI h ha hf (fun m hm => hev ⟨m, hm⟩))

/-- Within `k` turns the thread leaves the branch. -/
def Sys.Leaves (s : Sys) (A T lid : ℕ) (e : Entry) (g : FInfo) (d : Dir) (rest : List Call)
    (k : ℕ) : Prop :=
  ∃ j ≤ k, ∃ s', TraceSystem.run Sys.step s (List.replicate j (.client A T (.turn 0 0))) = some s' ∧
    (s'.client A).Left s'.table T lid e g d rest

theorem leaves_turn {c' : Client} {k : ℕ} (hI : (s.client A).Amid s.table T lid e g d rest front)
    (hrun : front.head?.any Call.running = true) (hup : s.extentServerUp = true)
    (hturn : (s.client A).turn s.table s.now T 0 0 = some (.done c' s.table))
    (hnext : ∀ s' : Sys, s'.client A = c' → s'.table = s.table → s'.extentServerUp = true →
      s'.Leaves A T lid e g d rest k) : s.Leaves A T lid e g d rest (k+1) := by
  have hstep : s.step (.client A T (.turn 0 0)) =
      some { s.setClient A c' with table := s.table } := by
    simp [Sys.step, hI.alive, hup, Client.move, hI.mutex hrun, hturn]
  obtain ⟨j,hj,s',hs',hleft⟩ := hnext { s.setClient A c' with table := s.table }
    ((client_setClient s A A c').trans (if_pos rfl)) rfl hup
  refine ⟨j+1, by omega, s', ?_, hleft⟩
  rw [List.replicate_succ, TraceSystem.run_cons, hstep]
  exact hs'

section Leaves
variable (hlid : lid ≠ 2) (hd : d.Wf) (hcaller : AcquireCaller rest) (hup : s.extentServerUp = true)
include hcaller hup

theorem releaseCopy_leaves
    (hI : (s.client A).Amid s.table T lid e g d rest [.release n .start,
      .resolve lid .releaseCopy]) :
    s.Leaves A T lid e g d rest 1 := by
  obtain ⟨c',hturn,hleft⟩ := releaseCopy_turn (w := s.now) (a := 0) (b := 0) hcaller hI
  refine leaves_turn hI rfl hup hturn ?_
  intro s' hc ht _
  exact ⟨0, by omega, s', rfl, by rw [hc, ht]; exact hleft⟩

include hlid

theorem releaseTmp_leaves
    (hI : (s.client A).Amid s.table T lid e g d rest [.release 2 .start,
      .resolve lid (.releaseTmp n)]) :
    s.Leaves A T lid e g d rest 2 := by
  obtain ⟨c',hturn,hI'⟩ := releaseTmp_turn (w := s.now) (a := 0) (b := 0) hlid hI
  refine leaves_turn hI rfl hup hturn ?_
  intro s' hc ht hup'
  exact releaseCopy_leaves hcaller hup' (by rw [hc, ht]; exact hI')

theorem drop_leaves (hI : (s.client A).Amid s.table T lid e g d rest [.resolve lid (.drop n 2)]) :
    s.Leaves A T lid e g d rest 3 := by
  obtain ⟨c',hturn,hI'⟩ := drop_turn (w := s.now) (a := 0) (b := 0) hlid hI
  refine leaves_turn hI rfl hup hturn ?_
  intro s' hc ht hup'
  exact releaseTmp_leaves hlid hcaller hup' (by rw [hc, ht]; exact hI')

theorem enter_leaves {name dir : Str}
    (hI : (s.client A).Amid s.table T lid e g d rest [.resolve lid (.enter n 2 name dir)]) :
    s.Leaves A T lid e g d rest 4 := by
  obtain ⟨c',hturn,hI'⟩ := enter_turn (w := s.now) (a := 0) (b := 0) hlid hI
  refine leaves_turn hI rfl hup hturn ?_
  intro s' hc ht hup'
  exact drop_leaves hlid hcaller hup' (by rw [hc, ht]; exact hI')

include hd

theorem readTmp_leaves (hcopy : ((s.client A).localExtent[2]?).isSome = true)
    (hI : (s.client A).Amid s.table T lid e g d rest [.resolve lid (.readTmp n 2 e.attr.name)]) :
    s.Leaves A T lid e g d rest 5 := by
  obtain ⟨c',name,dir,hturn,hI'⟩ := readTmp_turn (w := s.now) (a := 0) (b := 0) hd hI hcopy
  refine leaves_turn hI rfl hup hturn ?_
  intro s' hc ht hup'
  exact enter_leaves hlid hcaller hup' (by rw [hc, ht]; exact hI')

theorem fetchTmp_leaves (hI : (s.client A).Amid s.table T lid e g d rest
      [.resolve lid (.fetch d.toStr (.readTmp n 2 e.attr.name))]) :
    s.Leaves A T lid e g d rest 6 := by
  obtain ⟨c',hturn,hcopy,hI'⟩ := fetchTmp_turn (w := s.now) (a := 0) (b := 0) hlid hI
  refine leaves_turn hI rfl hup hturn ?_
  intro s' hc ht hup'
  exact readTmp_leaves hlid hd hcaller hup' (by rw [hc]; exact hcopy) (by rw [hc, ht]; exact hI')

/-- From `make_copy` on nothing but turns of the thread is needed. -/
theorem copy_leaves (hdir : (s.client A).localExtent.sees s.table 2 = some d.toStr)
    (hI : (s.client A).Amid s.table T lid e g d rest [.resolve lid (.copy n 2)]) :
    s.Leaves A T lid e g d rest 8 := by
  obtain ⟨c',hturn,hI'⟩ := copy_turn (w := s.now) (a := 0) (b := 0) hlid hdir hI
  refine leaves_turn hI rfl hup hturn ?_
  intro s' hc ht hup'
  have hI'' : (s'.client A).Amid s'.table T lid e g d rest
    [.resolve lid (.readTmp n 2 e.attr.name)] := by
    rw [hc, ht]
    exact hI'
  rcases hcopy : (s'.client A).localExtent[2]? with _ | e₂
  · obtain ⟨c₂,hturn₂,hI₂⟩ := readTmp_fetches (w := s'.now) (a := 0) (b := 0) hI'' hcopy
    refine leaves_turn hI'' rfl hup' hturn₂ ?_
    intro s₂ hc₂ ht₂ hup₂
    exact fetchTmp_leaves hlid hd hcaller hup₂ (by rw [hc₂, ht₂]; exact hI₂)
  · obtain ⟨j,hj,hleaves⟩ := readTmp_leaves hlid hd hcaller hup' (by rw [hcopy]; rfl) hI''
    exact ⟨j, by omega, hleaves⟩

end Leaves

/-- The end of the branch, in terms of what a later call finds. -/
theorem Client.Left.bothKept {c : Client} {t : Table} (h : c.Left t T lid e g d rest)
    (hname : Plain e.attr.name) (hd : d.Wf) : ∃ n k, c.BothKept t lid e g d n k := by
  obtain ⟨n,k,hr⟩ := h.resolved
  have hwf : Dir.Wf (d.insert (copyName e.attr.name k) n) :=
    hd.insert (copyName_plain hname k) (drawn_lt hr.drawn (Or.inr rfl))
  refine ⟨n, k, hr.other, hr.copy, hr.fresh, ⟨_, hr.entered, parseDir_toStr hwf⟩, hr.lock, ?_⟩
  intro now
  refine ⟨⟨(c.localExtent.load lid g.buf g.a).touch lid now, t⟩, ?_⟩
  simp [Store.exec, Store.withCopy, hr.gone, Cache.getHelper, Table.get, Table.getattr, hr.extent,
    Cache.load]

theorem resolving_run {s₀ s₁ : Sys} {es : List Event}
    (hc : (s₀.client A).Conflicted s₀.table T lid e g rest) (hlid : lid ≠ 2) (hd : d.Wf)
    (hwake : s₀.step (.client A T .wake) = some s₁)
    (hm : TraceSystem.Meets Sys.step (fun s ev => Resolving A T lid rest d s ev = true) s₁ es)
    (hrun : TraceSystem.run Sys.step s₁ es = some s) :
    s.Amid A T lid e g d rest ∨ (s.client A).Left s.table T lid e g d rest := by
  have hfirst : s₁.Amid A T lid e g d rest := by
    simp only [Sys.step, Client.move] at hwake
    split_ifs at hwake with hup hx
    rcases hw : (s₀.client A).wake s₀.table T with _ | o
    · rw [hw] at hwake
      cases hwake
    · have hal : (s₀.client A).aborted = false := by
        rcases hab : (s₀.client A).aborted
        · rfl
        · simp [hab] at hup
      obtain ⟨c',rfl,hI⟩ := conflicted_enters (d := d) hc hal hw
      rw [hw] at hwake
      cases hwake
      have hclient : Sys.client { s₀.setClient A c' with table := s₀.table } A = c' :=
        (client_setClient s₀ A A c').trans (if_pos rfl)
      unfold Sys.Amid
      rw [hclient]
      exact ⟨_, hI⟩
  refine TraceSystem.Meets.invariant (I := fun s => s.Amid A T lid e g d rest ∨
    (s.client A).Left s.table T lid e g d rest) ?_ (Or.inl hfirst) hm hrun
  intro s ev s' hI hr h
  exact resolving_step hlid hd hc.caller hI hr h

end

/-- Along every run of the conflict branch no `VERIFY` fails; when the branch is left, both versions
have been kept; and from `make_copy` on the thread leaves it within eight turns, whatever the
directory is. -/
theorem conflict_keeps_both {s₀ s₁ s : Sys} {es : List Event} {A T lid : ℕ} {rest : List Call}
    {e : Entry} {g : FInfo} {d : Dir} (hc : (s₀.client A).Conflicted s₀.table T lid e g rest)
    (hlid : lid ≠ 2) (hname : Plain e.attr.name) (hd : d.Wf)
    (hwake : s₀.step (.client A T .wake) = some s₁)
    (hm : TraceSystem.Meets Sys.step (fun s ev => Resolving A T lid rest d s ev = true) s₁ es)
    (hrun : TraceSystem.run Sys.step s₁ es = some s) :
    (s.client A).aborted = false ∧
    ((s.thread A T).resolves lid rest = false →
      ∃ n k, (s.client A).BothKept s.table lid e g d n k) ∧
    (∀ n, (s.thread A T).calls = .resolve lid (.copy n 2) :: rest →
      (s.client A).localExtent.sees s.table 2 = some d.toStr → s.extentServerUp = true →
      ∃ j ≤ 8, ∃ s',
        TraceSystem.run Sys.step s (List.replicate j (.client A T (.turn 0 0))) = some s' ∧
        (s'.thread A T).resolves lid rest = false ∧
        ∃ n k, (s'.client A).BothKept s'.table lid e g d n k) := by
  have hI := resolving_run hc hlid hd hwake hm hrun
  refine ⟨?_, ?_, ?_⟩
  · obtain ⟨front,hfront⟩ | hleft := hI
    · exact hfront.alive
    · exact hleft.alive
  · intro hout
    obtain ⟨front,hfront⟩ | hleft := hI
    · exact absurd (hfront.resolves.symm.trans hout) (by simp)
    · exact hleft.bothKept hname hd
  · intro n hcalls hdir hup
    have hamid : (s.thread A T).resolves lid rest = true := by
      simp [Thread.resolves, hcalls, resolving]
    obtain ⟨front,hfront⟩ | hleft := hI
    · have hcopy : front = [.resolve lid (.copy n 2)] := by
        have heq : front ++ rest = [.resolve lid (.copy n 2)] ++ rest :=
          hfront.calls.symm.trans hcalls
        exact List.append_cancel_right heq
      subst hcopy
      obtain ⟨j,hj,s',hs',hleft⟩ := copy_leaves hlid hd hc.caller hup hdir hfront
      exact ⟨j, hj, s', hs', hleft.left, hleft.bothKept hname hd⟩
    · exact absurd (hamid.symm.trans hleft.left) (by simp)

/-- The directory `tmp`, in which the name of the file is taken. -/
def takenDir : Dir := (∅ : Dir).insert [97] 9

/-- Client 1 makes the directory and the file `a`, and then two versions of it arise. -/
def twoVersions : List Event :=
  let l := 0x80000005
  acquires 1 0 2 ++ reads 1 0 2 ++ writes 1 0 2 takenDir.toStr ++ releases 1 0 2 ++
    acquires 1 0 l ++ reads 1 0 l ++ writes 1 0 l [2] ++
    [.client 1 0 (.access l (.rename [97]))] ++ releases 1 0 l ++ asks 0 0 l ++ steals 0 0 l ++
      [.client 0 0 .wake] ++
    reads 0 0 l ++ [.client 0 0 .loadAttr] ++ writes 0 0 l [3] ++ releases 0 0 l ++
    [.disconnect 0] ++ acquires 1 0 l ++ reads 1 0 l ++ [.client 1 0 .loadAttr] ++
    writes 1 0 l [4] ++ releases 1 0 l ++ reconnects 0 1 ++ steals 0 1 l

/-- The conflict branch: it draws 7, gets the lock of `tmp` from client 1, and makes the copy. -/
def keepsBoth : List Event :=
  [.client 0 1 (.turn 0 7), .client 0 1 (.turn 0 0), .client 0 1 (.turn 0 0), .serve 0 1,
    .client 0 1 .wake, .client 0 1 (.turn 0 0), .client 0 1 (.turn 0 0), .client 0 1 (.turn 0 0)] ++
    steals 0 1 2 ++ [.client 0 1 .wake] ++ List.replicate 8 (.client 0 1 (.turn 0 0))

theorem conflict_keeps_both_here : ∃ s₀ s₁ s e g n k, Sys.run twoVersions = some s₀ ∧
    s₀.step (.client 0 1 .wake) = some s₁ ∧ TraceSystem.run Sys.step s₁ keepsBoth = some s ∧
    e.extent = [3] ∧ g.buf = [4] ∧ takenDir[e.attr.name]? = some 9 ∧
    (s.client 0).BothKept s.table 0x80000005 e g takenDir n k := by
  obtain ⟨s₀,hrun₀,hcalls,hoff,hacq,hstale,hcopy,hgoes⟩ := run_reaches (P := fun s₀ =>
    (s₀.thread 0 1).calls = [.acquire 0x80000005 (.reply .ok), .reconnect (some 0x80000005)] ∧
    (s₀.client 0).disconnected = false ∧ ((s₀.client 0).lock 0x80000005).state = .acquiring ∧
    ((s₀.client 0).lock 0x80000005).stale = true ∧
    (s₀.client 0).localExtent[0x80000005]?.any (fun e =>
      s₀.table[0x80000005]?.any (fun g => e.dirty && e.extent = [3] && g.buf = [4] &&
        e.attr.version < g.a.version && e.attr.name = [97])) = true ∧
    (s₀.step (.client 0 1 .wake)).any (fun s₁ =>
      decide (TraceSystem.Meets Sys.step (fun s ev =>
        Resolving 0 1 0x80000005 [.reconnect (some 0x80000005)] takenDir s ev = true)
        s₁ keepsBoth) &&
      (TraceSystem.run Sys.step s₁ keepsBoth).any (fun s =>
        (s.thread 0 1).resolves 0x80000005 [.reconnect (some 0x80000005)] = false)) = true)
    (show (Sys.run twoVersions).any _ = true by decide +kernel)
  obtain ⟨e,he,hcopy⟩ := (Option.any_eq_true _ _).mp hcopy
  obtain ⟨g,hg,hversion⟩ := (Option.any_eq_true _ _).mp hcopy
  obtain ⟨s₁,hs₁,hgoes⟩ := (Option.any_eq_true _ _).mp hgoes
  simp only [Bool.and_eq_true, decide_eq_true_eq] at hversion hgoes
  obtain ⟨hm,hrun⟩ := hgoes
  obtain ⟨s,hs,hout⟩ := (Option.any_eq_true _ _).mp hrun
  obtain ⟨⟨⟨⟨hdirty,hext⟩,hbuf⟩,hlater⟩,hname⟩ := hversion
  have hc : (s₀.client 0).Conflicted s₀.table 1 0x80000005 e g [.reconnect (some 0x80000005)] :=
    ⟨hcalls, .reconnect, hoff, Or.inl hacq, hstale, he, hdirty, hg, hlater⟩
  have hwf : takenDir.Wf := Dir.Wf.empty.insert (by decide) (by decide)
  obtain ⟨n,k,hkept⟩ := (conflict_keeps_both hc (by decide) (by rw [hname]; decide) hwf hs₁
    hm hs).2.1 (of_decide_eq_true hout)
  exact ⟨s₀, s₁, s, e, g, n, k, hrun₀, hs₁, hs, hext, hbuf, by rw [hname]; decide +kernel, hkept⟩

end DisconnectedYfs.YFS
