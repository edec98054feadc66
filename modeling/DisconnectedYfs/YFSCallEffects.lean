import DisconnectedYfs.YFSFileSystem
import DisconnectedYfs.YFSStepEffects

/-! What the calls of an operation do, step by step, to the thread that makes them, to its client's
cache and to the extent server, while no client disconnects. -/
namespace DisconnectedYfs.YFS
open Std

/-- The thread is in no call, or in one call of the application. -/
def Thread.Simple (th : Thread) : Prop :=
  th.calls = [] ∨ (∃ l pc, th.calls = [.acquire l pc]) ∨ (∃ l pc, th.calls = [.release l pc]) ∨
    ∃ l read buf op, th.calls = [.load l read buf op]

/-- A thread, its client's cache and the extent server's table. -/
structure Local where
  th : Thread
  cache : Cache
  table : Table

/-- The moves of a thread that is in at most one call. -/
inductive Does (n : UInt32) (x : Local) : Move → Local → Prop
  | callAcquire {l} (hc : x.th.calls = []) (hu : x.th.unlinking = none) :
      Does n x (.callAcquire l) ⟨⟨[.acquire l .start], x.th.held, none⟩, x.cache, x.table⟩
  | acquiring {m l pc} (pc' : AcquirePc) (hc : x.th.calls = [.acquire l pc]) :
      Does n x m ⟨⟨[.acquire l pc'], x.th.held, x.th.unlinking⟩, x.cache, x.table⟩
  | acquired {m l pc} (hc : x.th.calls = [.acquire l pc]) :
      Does n x m ⟨⟨[], (l, false) :: x.th.held, x.th.unlinking⟩, x.cache, x.table⟩
  | callRelease {l u read} (hc : x.th.calls = []) (hs : x.th.section? l = some read) :
      Does n x (.callRelease l u)
        ⟨⟨[.release l .start], x.th.drop l, if u then some l else x.th.unlinking⟩,
          x.cache, x.table⟩
  | flushed {a b l cache table} (hc : x.th.calls = [.release l .start])
      (hf : x.cache.flush x.table l n = some (cache, table)) :
      Does n x (.turn a b) ⟨⟨[.release l .call], x.th.held, x.th.unlinking⟩, cache, table⟩
  | released {m l pc} (hc : x.th.calls = [.release l pc]) :
      Does n x m ⟨⟨[], x.th.held, x.th.unlinking⟩, x.cache, x.table⟩
  | hit {l op read e} (hc : x.th.calls = []) (hu : x.th.unlinking = none)
      (hs : x.th.section? l = some read) (he : x.cache[l]? = some e) :
      Does n x (.access l op)
        ⟨⟨[], (l, true) :: x.th.drop l, none⟩, op.finish x.cache l n, x.table⟩
  | miss {l op read} (hc : x.th.calls = []) (hu : x.th.unlinking = none)
      (hs : x.th.section? l = some read) (he : x.cache[l]? = none) (ht : x.table[l]? = none) :
      Does n x (.access l op) ⟨⟨[], (l, true) :: x.th.drop l, none⟩, x.cache, x.table⟩
  | fetching {l op read f} (hc : x.th.calls = []) (hu : x.th.unlinking = none)
      (hs : x.th.section? l = some read) (he : x.cache[l]? = none) (ht : x.table[l]? = some f) :
      Does n x (.access l op) ⟨⟨[.load l read f.buf op], x.th.drop l, none⟩, x.cache, x.table⟩
  | loaded {l op read buf f} (hc : x.th.calls = [.load l read buf op])
      (ht : x.table[l]? = some f) :
      Does n x .loadAttr ⟨⟨[], (l, true) :: x.th.held, x.th.unlinking⟩,
        op.finish (x.cache.load l buf f.a) l n, x.table⟩
  | put {l buf read} (hc : x.th.calls = []) (hu : x.th.unlinking = none)
      (hs : x.th.section? l = some read) :
      Does n x (.put l buf) ⟨x.th, x.cache.put l buf n, x.table⟩
  | removed {l e} (hc : x.th.calls = []) (hu : x.th.unlinking = some l)
      (he : x.cache[l]? = some e) :
      Does n x (.unlinkRemove l) ⟨⟨[], x.th.held, none⟩, x.cache.erase l, x.table⟩

/-- Connected, and no lock is stale. -/
structure Client.Regular (c : Client) : Prop where
  online : c.disconnected = false
  fresh : ∀ l, (c.lock l).stale = false

def Client.localAt (c : Client) (t : Table) (T : ℕ) : Local := ⟨c.thread T, c.localExtent, t⟩

section
variable {c c' : Client} {t t' : Table} {now : UInt32} {T l a b : ℕ} {m : Move} {r : Status}

theorem acquireDone_does (h : c.acquireDone t T l r [] = .done c' t') (hr : r ≠ .disconnected) :
    c'.localAt t' T = ⟨⟨[], (l, false) :: (c.thread T).held, (c.thread T).unlinking⟩,
      c.localExtent, t⟩ := by
  simp only [Client.acquireDone, if_neg hr] at h
  cases h
  simp [Client.localAt]

theorem status_ne (r : Reply) : r.status ≠ .disconnected := by
  cases r <;> simp [Reply.status]

theorem turn_does (hreg : c.Regular) (hs : (c.thread T).Simple)
    (h : c.turn t now T a b = some (.done c' t')) :
    Does now (c.localAt t T) (.turn a b) (c'.localAt t' T) := by
  unfold Client.turn at h
  rcases hs with hc | ⟨l,pc,hc⟩ | ⟨l,pc,hc⟩ | ⟨l,read,buf,op,hc⟩
  · simp [hc] at h
  · cases pc with
    | start =>
      simp only [hc, Client.acquireEnter, hreg.online, Bool.false_and, Bool.false_eq_true,
        if_false] at h
      cases h
      simpa [Client.localAt] using Does.acquiring (x := c.localAt t T) .check hc
    | check =>
      simp only [hc, Client.acquireCheck, hreg.online, hreg.fresh l, Bool.false_eq_true, false_and,
        if_false, false_or] at h
      split_ifs at h
      · cases h
        simpa [Client.localAt] using Does.acquiring (x := c.localAt t T) .waiting hc
      · cases h
        simpa [Client.localAt] using Does.acquiring (x := c.localAt t T) .call hc
      · rw [acquireDone_does (Option.some.inj h) (by simp)]
        exact Does.acquired (x := c.localAt t T) hc
    | _ => simp [hc] at h
  · cases pc with
    | start =>
      simp only [hc, Client.releaseWo, hreg.online, hreg.fresh l, Bool.or_self, Bool.false_eq_true,
        if_false] at h
      split at h
      · simp only [Client.releaseDone] at h
        cases h
        simpa [Client.localAt] using Does.released (x := c.localAt t T) hc
      · split_ifs at h
        · split at h
          · cases h
          · rename_i q hq
            cases h
            simpa [Client.localAt] using
              Does.flushed (x := c.localAt t T) (a := a) (b := b) (n := now) hc hq
      · cases h
    | _ => simp [hc] at h
  · simp [hc] at h

theorem wake_does (hreg : c.Regular) (hs : (c.thread T).Simple)
    (h : c.wake t T = some (.done c' t')) :
    Does now (c.localAt t T) .wake (c'.localAt t' T) := by
  unfold Client.wake at h
  rcases hs with hc | ⟨l,pc,hc⟩ | ⟨l,pc,hc⟩ | ⟨l,read,buf,op,hc⟩
  · simp [hc] at h
  · cases pc with
    | waiting =>
      simp only [hc] at h
      cases h
      simpa [Client.localAt] using Does.acquiring (x := c.localAt t T) (n := now) .check hc
    | waitRetry =>
      simp only [hc] at h
      split_ifs at h
      cases h
      simpa [Client.localAt] using Does.acquiring (x := c.localAt t T) (n := now) .call hc
    | reply r =>
      -- the lock is granted, with or without `lock_acquired`, or the request is sent again
      have hgot : ∀ (s : Status) (st : LState), s ≠ .disconnected →
          ((c.setLcMutex (some T)).setLock l st false).acquireDone t T l s [] = .done c' t' ∨
            (c.setLcMutex (some T)).acquireDone t T l s [] = .done c' t' →
          Does now (c.localAt t T) .wake (c'.localAt t' T) := by
        intro s st hs hd
        rcases hd with hd | hd <;>
        · rw [acquireDone_does hd hs]
          exact Does.acquired (x := c.localAt t T) hc
      have hon : (c.setLcMutex (some T)).disconnected = false := hreg.online
      have hst : ((c.setLcMutex (some T)).lock l).stale = false := hreg.fresh l
      simp only [hc, Client.acquireReply, Client.lockAcquired, hon, hst, Bool.false_eq_true,
        if_false] at h
      split at h
      · exact hgot _ _ (by simp) (Or.inl (Option.some.inj h))
      · exact hgot _ _ (by simp) (Or.inl (Option.some.inj h))
      · cases h
        simpa [Client.localAt] using Does.acquiring (x := c.localAt t T) (n := now) .waitRetry hc
      · cases h
        simpa [Client.localAt] using Does.acquiring (x := c.localAt t T) (n := now) .call hc
      · exact hgot _ .none (status_ne _) (Or.inr (Option.some.inj h))
    | _ => simp [hc] at h
  · cases pc with
    | reply =>
      simp only [hc, Client.releaseDone] at h
      cases h
      simpa [Client.localAt] using Does.released (x := c.localAt t T) (n := now) hc
    | _ => simp [hc] at h
  · simp [hc] at h

theorem access_does {op : Access} (h : c.access t now T l op = some (.done c' t')) :
    Does now (c.localAt t T) (.access l op) (c'.localAt t' T) := by
  unfold Client.access at h
  dsimp only at h
  rcases hs : (c.thread T).section? l with _ | read
  · rw [hs] at h
    cases h
  rw [hs] at h
  dsimp only at h
  split_ifs at h with hidle
  simp only [Thread.idle, Bool.and_eq_true, decide_eq_true_eq] at hidle
  obtain ⟨⟨hc,hu⟩,-⟩ := hidle
  split at h
  · rename_i e he
    cases h
    simpa [Client.localAt] using Does.hit (x := c.localAt t T) (n := now) hc hu hs he
  · rename_i he
    simp only [Table.get] at h
    rcases ht : t[l]? with _ | f
    · rw [ht] at h
      cases h
      simpa [Client.localAt] using Does.miss (x := c.localAt t T) (n := now) hc hu hs he ht
    · rw [ht] at h
      cases h
      simpa [Client.localAt] using Does.fetching (x := c.localAt t T) (n := now) hc hu hs he ht

theorem loadAttr_does (h : c.loadAttr t now T = some (.done c' t')) :
    Does now (c.localAt t T) .loadAttr (c'.localAt t' T) := by
  unfold Client.loadAttr at h
  dsimp only at h
  split at h
  · rename_i l read buf op hc
    simp only [Table.getattr] at h
    rcases ht : t[l]? with _ | f
    · rw [ht] at h
      cases h
    · rw [ht] at h
      cases h
      simpa [Client.localAt] using Does.loaded (x := c.localAt t T) (n := now) hc ht
  · cases h

/-- Every move of such a thread is one of these. -/
theorem move_does (hreg : c.Regular) (hs : (c.thread T).Simple) (hm : m ≠ .reconnect)
    (h : c.move t now T m = some (.done c' t')) :
    Does now (c.localAt t T) m (c'.localAt t' T) := by
  cases m with
  | callAcquire l =>
    simp only [Client.move] at h
    split_ifs at h with hidle
    simp only [Thread.idle, Bool.and_eq_true, decide_eq_true_eq] at hidle
    cases h
    have := Does.callAcquire (x := c.localAt t T) (n := now) (l := l) hidle.1.1 hidle.1.2
    have hu : (c.thread T).unlinking = none := hidle.1.2
    simpa [Client.localAt, hu] using this
  | callRelease l unlink =>
    simp only [Client.move] at h
    rcases hsec : (c.thread T).section? l with _ | read
    · rw [hsec] at h
      cases h
    rw [hsec] at h
    dsimp only at h
    split at h
    · rename_i hidle
      simp only [Bool.and_eq_true, decide_eq_true_eq] at hidle
      cases h
      simpa [Client.localAt] using Does.callRelease (x := c.localAt t T) (n := now)
        (u := unlink) hidle.1.1 hsec
    · cases h
  | turn a b =>
    simp only [Client.move] at h
    split_ifs at h
    exact turn_does hreg hs h
  | wake =>
    simp only [Client.move] at h
    split_ifs at h
    exact wake_does hreg hs h
  | access l op => exact access_does h
  | loadAttr => exact loadAttr_does h
  | put l buf =>
    simp only [Client.move] at h
    rcases hsec : (c.thread T).section? l with _ | read
    · rw [hsec] at h
      cases h
    rw [hsec] at h
    dsimp only at h
    split_ifs at h with hidle
    simp only [Thread.idle, Bool.and_eq_true, decide_eq_true_eq] at hidle
    cases h
    exact Does.put (x := c.localAt t T) (n := now) hidle.1.1 hidle.1.2 hsec
  | unlinkRemove l =>
    simp only [Client.move] at h
    split_ifs at h with hidle
    simp only [Bool.and_eq_true, decide_eq_true_eq] at hidle
    split at h
    · cases h
    · rename_i cache hcache
      cases h
      unfold Cache.remove at hcache
      split at hcache
      · rename_i e he
        cases hcache
        simpa [Client.localAt] using Does.removed (x := c.localAt t T) (n := now)
          hidle.1.1 hidle.1.2 he
      · cases hcache
  | reconnect => exact absurd rfl hm

end

/-- A request on top of the stack moves on at the server. -/
inductive Thread.Served : Thread → Thread → Prop
  | same {th} : Served th th
  | acquire {l pc rest held unlinking} (pc' : AcquirePc) :
      Served ⟨.acquire l pc :: rest, held, unlinking⟩ ⟨.acquire l pc' :: rest, held, unlinking⟩
  | release {l pc rest held unlinking} (pc' : ReleasePc) :
      Served ⟨.release l pc :: rest, held, unlinking⟩ ⟨.release l pc' :: rest, held, unlinking⟩

/-- What a step of the servers or of a handler does: at most one client flushes an extent. -/
structure Message (s s' : Sys) : Prop where
  aborted : ∀ C, (s'.client C).aborted = (s.client C).aborted
  thread : ∀ C U, (s.thread C U).Served (s'.thread C U)
  extents : ((∀ C, (s'.client C).localExtent = (s.client C).localExtent) ∧ s'.table = s.table) ∨
    ∃ o l cache, (s.client o).localExtent.flush s.table l s.now = some (cache, s'.table) ∧
      ∀ C, (s'.client C).localExtent = if o = C then cache else (s.client C).localExtent

section
variable {s s' : Sys} {A B T : ℕ} {e : Event}

theorem replaces_served {f f' : Call} {rest : List Call} (h : Replaces s s' B T f' rest)
    (hcalls : (s.thread B T).calls = f :: rest)
    (hf : (∃ l pc pc', f = .acquire l pc ∧ f' = .acquire l pc') ∨
      ∃ l pc pc', f = .release l pc ∧ f' = .release l pc') (C U : ℕ) :
    (s.thread C U).Served (s'.thread C U) := by
  rw [h C U]
  split_ifs with hC
  · obtain ⟨rfl,rfl⟩ := hC
    rcases hth : s.thread B T with ⟨calls,held,unlinking⟩
    rw [hth] at hcalls
    cases hcalls
    obtain ⟨l,pc,pc',rfl,rfl⟩ | ⟨l,pc,pc',rfl,rfl⟩ := hf
    · exact .acquire pc'
    · exact .release pc'
  · exact .same

theorem aborted_setCalls (s : Sys) (B T C : ℕ) (calls : List Call) :
    ((s.setCalls B T calls).client C).aborted = (s.client C).aborted := by
  rw [client_setCalls]
  split_ifs with hB
  · subst hB
    rfl
  · rfl

theorem aborted_setClient {c' : Client} (hc : c'.aborted = (s.client B).aborted) (C : ℕ) :
    ((s.setClient B c').client C).aborted = (s.client C).aborted := by
  rw [client_setClient]
  split_ifs with hB
  · subst hB
    exact hc
  · rfl

/-- Nothing but the flag of a server changes. -/
theorem message_same (hc : s'.clients = s.clients) (ht : s'.table = s.table) : Message s s' := by
  have hclient : ∀ C, s'.client C = s.client C := by
    intro C
    rw [Sys.client, hc]
    rfl
  refine ⟨fun C => by rw [hclient], fun C U => ?_, Or.inl ⟨fun C => by rw [hclient], ht⟩⟩
  have hthread : s'.thread C U = s.thread C U := by
    unfold Sys.thread
    rw [hclient]
  rw [hthread]
  exact .same

theorem message_setCalls {f f' : Call} {rest : List Call}
    (hcalls : (s.thread B T).calls = f :: rest)
    (hf : (∃ l pc pc', f = .acquire l pc ∧ f' = .acquire l pc') ∨
      ∃ l pc pc', f = .release l pc ∧ f' = .release l pc')
    (hc : s'.clients = (s.setCalls B T (f' :: rest)).clients) (ht : s'.table = s.table) :
    Message s s' := by
  have hclient : ∀ C, s'.client C = (s.setCalls B T (f' :: rest)).client C := by
    intro C
    rw [Sys.client, hc]
    rfl
  refine ⟨fun C => ?_, fun C U => ?_, Or.inl ⟨fun C => ?_, ht⟩⟩
  · rw [hclient]
    exact aborted_setCalls s B T C _
  · have hthread : s'.thread C U = (s.setCalls B T (f' :: rest)).thread C U := by
      unfold Sys.thread
      rw [hclient]
    rw [hthread]
    exact replaces_served (replaces_setCalls s B T f' rest) hcalls hf C U
  · rw [hclient]
    exact cache_sys_setCalls s B T C _

/-- A handler answers at client `o`. -/
theorem message_answer {o lid : ℕ} {rest : List Call} {p : Phase} {pc' : AcquirePc}
    (hcalls : (s.thread B T).calls = .acquire lid (.revoking o p) :: rest) (c' : Client)
    (hthread : ∀ U, c'.thread U = s.thread o U) (hab : c'.aborted = (s.client o).aborted)
    (hcache : c'.localExtent = (s.client o).localExtent) :
    Message s ((s.setClient o c').setCalls B T (.acquire lid pc' :: rest)) := by
  refine ⟨fun C => ?_, ?_, Or.inl ⟨cache_answer c' hcache _, rfl⟩⟩
  · rw [aborted_setCalls]
    exact aborted_setClient hab C
  · exact replaces_served (replaces_answer c' hthread B T _ rest) hcalls
      (Or.inl ⟨lid, _, _, rfl, rfl⟩)

theorem message_step (he : e.isInner = true) (hc : ∀ A T m, e ≠ .client A T m)
    (h : s.step e = some s') : Message s s' := by
  have hrelease : ∀ {lid id B T : ℕ} {f f' : Call} {rest : List Call},
      (s.thread B T).calls = f :: rest →
      ((∃ l pc pc', f = .acquire l pc ∧ f' = .acquire l pc') ∨
        ∃ l pc pc', f = .release l pc ∧ f' = .release l pc') →
      Message s (s.serveRelease lid id B T (f' :: rest)) := by
    intro lid id B T f f' rest hcalls hf
    by_cases ho : (s.lockTable.info lid).owner = some id
    · rw [serveRelease_owner ho]
      exact message_setCalls hcalls hf rfl rfl
    · rw [serveRelease_other ho]
      exact message_same rfl rfl
  cases e with
  | client A T m => exact absurd rfl (hc A T m)
  | serve B T =>
    replace h := of_server_up h
    unfold Sys.serve at h
    split at h
    · rename_i hcalls
      cases h
      exact message_setCalls hcalls (Or.inl ⟨_, _, _, rfl, rfl⟩) rfl rfl
    · rename_i hcalls
      cases h
      exact hrelease hcalls (Or.inr ⟨_, _, _, rfl, rfl⟩)
    · cases h
  | revoke B T =>
    obtain ⟨lid,o,rest,hcalls,⟨-,rfl⟩ | ⟨-,st,-,rfl⟩ | ⟨-,hs,⟨-,rfl⟩ | ⟨c,t,hflush,rfl⟩⟩⟩ :=
      revoke_cases (of_server_up h)
    · exact message_same rfl rfl
    · exact message_answer hcalls _ (fun _ => rfl) rfl rfl
    · exact message_same rfl rfl
    · refine ⟨fun C => ?_, ?_, Or.inr ⟨o, lid, c, hflush, fun C => ?_⟩⟩
      · refine (aborted_setCalls _ B T C _).trans ?_
        have hab : (((s.client o).setLock lid .freeRls false).setCache c).aborted =
            (s.client o).aborted := rfl
        exact aborted_setClient hab C
      · exact replaces_served (s := s) (replaces_answer (s := s) (o := o)
          (((s.client o).setLock lid .freeRls false).setCache c) (fun _ => rfl) B T _ rest) hcalls
          (Or.inl ⟨lid, _, _, rfl, rfl⟩)
      · refine (cache_sys_setCalls _ B T C _).trans ?_
        rw [client_setClient]
        split_ifs <;> rfl
  | serveRevoked B T =>
    replace h := of_server_up h
    unfold Sys.serveRevoked at h
    split at h
    · rename_i hcalls
      cases h
      exact hrelease hcalls (Or.inl ⟨_, _, _, rfl, rfl⟩)
    · cases h
  | revoked B T =>
    replace h := of_server_up h
    unfold Sys.revoked at h
    split at h
    · rename_i hcalls
      dsimp only at h
      split_ifs at h
      cases h
      exact message_answer hcalls _ (fun _ => rfl) rfl rfl
    · cases h
  | retry lid B =>
    obtain ⟨-,⟨-,rfl⟩ | ⟨-,st,-,rfl⟩⟩ := retry_cases (of_server_up h)
    · exact message_same rfl rfl
    · refine ⟨?_, fun C U => ?_, Or.inl ⟨?_, rfl⟩⟩
      · have hab : ((s.client B).setLock lid st ((s.client B).lock lid).stale).aborted =
            (s.client B).aborted := rfl
        exact aborted_setClient hab
      · change (s.thread C U).Served (((s.setClient B _).client C).thread U)
        rw [client_setClient]
        split_ifs with hC
        · subst hC
          exact .same
        · exact .same
      · exact cache_setClient_same (s := s) (o := B)
          ((s.client B).setLock lid st ((s.client B).lock lid).stale) rfl
  | disconnect A => cases he
  | clock now =>
    cases h
    exact message_same rfl rfl

/-- A move of a thread, seen from the system: a `VERIFY` fails in the client or at the extent
server, or the thread does what it does. -/
theorem client_does {m : Move} (hs : s.Ordered) (hsimple : (s.thread A T).Simple)
    (hm : m ≠ .reconnect) (h : s.step (.client A T m) = some s') :
    s' = s.setClient A { s.client A with aborted := true } ∨
    ((∃ a b, m = .turn a b) ∧ s'.clients = s.clients ∧ s'.table = s.table ∧
      s'.extentServerUp = false) ∨
    (∃ c', (∀ C, s'.client C = if A = C then c' else s.client C) ∧
      Does s.now ((s.client A).localAt s.table T) m (c'.localAt s'.table T) ∧
      (∀ U, U ≠ T → c'.thread U = s.thread A U) ∧ s'.extentServerUp = s.extentServerUp ∧
      s'.lockTable = s.lockTable) := by
  have hreg : (s.client A).Regular := by
    refine ⟨?_, fun l => ?_⟩
    · obtain ⟨g,-,ho⟩ := hs.lock 0
      exact (ho.online A).1
    · obtain ⟨g,-,ho⟩ := hs.lock l
      exact (ho.online A).2
  simp only [Sys.step] at h
  split_ifs at h with hab
  split at h
  · cases h
  · rename_i c' t' hmove
    cases h
    refine Or.inr (Or.inr ⟨c', fun C => client_setClient s A C c',
      move_does hreg hsimple hm hmove, ?_,
      rfl, rfl⟩)
    intro U hU
    have honly := (move_simulates (sound_fit hs.sound A) (hs.sound.settled A) hm hmove).1
    exact honly.others U (Ne.symm hU)
  · cases h
    exact Or.inl rfl
  · rename_i hmove
    cases h
    obtain ⟨lid,hlid,-⟩ := move_copies hmove
    refine Or.inr (Or.inl ⟨?_, rfl, rfl, rfl⟩)
    cases m with
    | turn a b => exact ⟨a, b, rfl⟩
    | _ => cases hlid

end

end DisconnectedYfs.YFS
