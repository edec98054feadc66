import DisconnectedYfs.YFSLockRoles

/-! Every move of a thread follows the protocol of each lock: for one lock it is a step of the
client's side, or it leaves that side as it is. -/
namespace DisconnectedYfs.YFS
open Std

/-- The client is in a state in which each lock has at most one activity, and that fits. -/
def Client.Fit (c : Client) : Prop := ∀ l, ∃ g, c.Agents l g ∧ (c.party l g).Fits

/-- Why a step of this kind can be part of the move. -/
def Explains (c : Client) (t : Table) (T : ℕ) (m : Move) (l : ℕ) : Kind → Prop
  | .plain => True
  | .conflict => m = .wake ∧ ∃ rest e, (c.thread T).calls = .acquire l (.reply .ok) :: rest ∧
      c.localExtent[l]? = some e ∧ compareVersion e t l = some false
  | .resolve => ∃ n stage, .resolve n stage ∈ (c.thread T).calls
  | .unlinked => m = .unlinkRemove l
  | .left => ∃ rest, (∃ a b, m = .turn a b) ∧ (c.thread T).calls = .release l .start :: rest
  | .rejoin => (c.thread T).calls.any Call.reconnects = true
  | .wrote read buf => m = .put l buf ∧ (c.thread T).section? l = some read
  | .quit read => (∃ unlink, m = .callRelease l unlink ∧ (c.thread T).section? l = some read) ∨
      ∃ n stage, .resolve n stage ∈ (c.thread T).calls

/-- The lock `l` follows the protocol from `c` and `t` to `c'` and `t'`. -/
def Follows (K : Kind → Prop) (c : Client) (t : Table) (c' : Client) (t' : Table) (l : ℕ)
    (g : Option (Agent × Role)) : Prop :=
  ∃ g', c'.Agents l g' ∧ ((c'.party l g' = c.party l g ∧ t'[l]? = t[l]?) ∨
    ∃ k, K k ∧ PartyStep k (c.party l g) t[l]? (c'.party l g') t'[l]?)

/-- Only thread `T` moves; it waits for no revoke it did not wait for, and reconnects only if it
did before. -/
structure OnlyThread (T : ℕ) (c c' : Client) : Prop where
  others : ∀ U, T ≠ U → c'.thread U = c.thread U
  marks : ∀ l, (c'.thread T).marks l = (c.thread T).marks l
  reconnects : (c'.thread T).calls.any Call.reconnects = true →
    (c.thread T).calls.any Call.reconnects = true
  offline : c'.disconnected = c.disconnected

section
variable {K : Kind → Prop} {c c' : Client} {t t' : Table} {T l : ℕ} {g : Option (Agent × Role)}

theorem follows_same (h : OnlyThread T c c') (ha : c.Agents l g)
    (hr : (c'.thread T).roles l = (c.thread T).roles l) (hl : c'.lock l = c.lock l)
    (hc : c'.localExtent[l]? = c.localExtent[l]?) (ht : t'[l]? = t[l]?) :
    Follows K c t c' t' l g := by
  refine ⟨g, ha.same h.others hr, Or.inl ⟨?_, ht⟩⟩
  simp only [Client.party, h.offline, hl, hc]

end

/-- After `acquire_wo(lid)` returned to its caller with the lock. -/
structure Acquired (c : Client) (t : Table) (T lid : ℕ) (rest : List Call) (c' : Client)
    (t' : Table) : Prop where
  table : t' = t
  lock : ∀ l, c'.lock l = c.lock l
  cache : c'.localExtent = c.localExtent
  offline : c'.disconnected = c.disconnected
  others : ∀ U, T ≠ U → c'.thread U = c.thread U
  marks : ∀ l, (c'.thread T).marks l = rest.flatMap (Call.marks l)
  reconnects : (c'.thread T).calls.any Call.reconnects = true → rest.any Call.reconnects = true
  other : ∀ l, lid ≠ l → (c'.thread T).roles l = restRoles c T rest l
  fresh : restRoles c T rest lid = [] → ∃ k q, Role.Fresh k q ∧
    (k = .rejoin → rest.any Call.reconnects = true) ∧ (c'.thread T).roles lid = [q]

theorem acquireDone_acquired {c c' : Client} {t t' : Table} {T lid : ℕ} {r : Status}
    {rest : List Call} (h : c.acquireDone t T lid r rest = .done c' t') (hr : r ≠ .disconnected) :
    Acquired c t T lid rest c' t' := by
  unfold Client.acquireDone at h
  split at h
  · cases h
    constructor <;> simp_all [Thread.roles, Thread.marks, restRoles, Role.Fresh]
  · cases h
    constructor <;> simp_all [Thread.roles, Thread.marks, restRoles, Role.Fresh, Call.reconnects,
      Call.marks, Stage.role, Stage.holds]
  · split_ifs at h
    cases h
    constructor <;> simp_all [Thread.roles, Thread.marks, restRoles, Role.Fresh, Call.reconnects,
      Call.marks, Stage.role, Stage.holds]
  · split_ifs at h
    cases h
    constructor <;> simp_all [Thread.roles, Thread.marks, restRoles, Role.Fresh, Call.reconnects,
      Call.marks, ReleasePc.role]
  · cases h

section
variable {c c₀ c' : Client} {t t' : Table} {T lid l : ℕ} {g : Option (Agent × Role)} {f : Call}
  {rest : List Call} {r : Role} {m : Move}

theorem roles_top (hc : (c.thread T).calls = f :: rest) (l : ℕ) :
    (c.thread T).roles l = f.roles l ++ restRoles c T rest l := by
  simp only [Thread.roles, hc, stackRoles_cons, List.append_assoc, restRoles]

theorem agents_top (ha : c.Agents lid g) (hc : (c.thread T).calls = f :: rest)
    (hf : f.roles lid = [r]) : g = some (.thread T, r) ∧ restRoles c T rest lid = [] := by
  have hr := roles_top hc lid
  rw [hf] at hr
  obtain ⟨h1,h2⟩ := agents_single ha hr (List.mem_cons_self)
  simp only [List.cons_append, List.nil_append, List.cons.injEq, true_and] at h2
  exact ⟨h1, h2⟩

/-- A lock that is neither used nor asked for has no activity. -/
theorem fits_idle {p : Party} (hf : p.Fits) (hs : p.state = .none ∨ p.state = .free) :
    p.agent = none := by
  obtain ⟨o,s,sl,cp,g⟩ := p
  obtain rfl | rfl : s = .none ∨ s = .free := hs <;>
    rcases g with _ | ⟨_ | _,_ | _⟩ <;> simp_all [Party.Fits]

theorem agents_none (ha : c.Agents lid none) (hc : (c.thread T).calls = f :: rest) :
    restRoles c T rest lid = [] := by
  have h1 := roles_top hc lid
  rw [ha T] at h1
  exact (List.append_eq_nil_iff.mp h1.symm).2

/-- The move follows the protocol of every lock. -/
def Simulates (c : Client) (t : Table) (T : ℕ) (m : Move) (c' : Client) (t' : Table) : Prop :=
  OnlyThread T c c' ∧
    ∀ l g, c.Agents l g → (c.party l g).Fits → Follows (Explains c t T m l) c t c' t' l g

/-- `acquire_wo(lid)` returns with the lock, after the client `c₀` has become `c` by changing only
what belongs to `lid`: the step to be shown is one of that lock. -/
theorem acquired_simulates (hcalls : (c₀.thread T).calls = f :: rest)
    (hf : ∀ l, lid ≠ l → f.roles l = []) (hm : ∀ l, f.marks l = [])
    (hthread : ∀ U, c.thread U = c₀.thread U)
    (hlock : ∀ l, lid ≠ l → c.lock l = c₀.lock l)
    (hcache : ∀ l, lid ≠ l → c.localExtent[l]? = c₀.localExtent[l]?)
    (hoff : c.disconnected = c₀.disconnected) (h : Acquired c t T lid rest c' t')
    (hstep : ∀ g, c₀.Agents lid g → (c₀.party lid g).Fits →
      (g = none ∨ ∃ r, g = some (.thread T, r)) ∧ restRoles c₀ T rest lid = [] ∧
      ∀ k q, Role.Fresh k q →
        PartyStep k (c₀.party lid g) t[lid]? (c.party lid (some (.thread T, q))) t[lid]?) :
    Simulates c₀ t T m c' t' := by
  have hrest : ∀ l, restRoles c T rest l = restRoles c₀ T rest l := by
    intro l
    simp only [restRoles, hthread T]
  have honly : OnlyThread T c₀ c' := by
    refine ⟨?_, ?_, ?_, h.offline.trans hoff⟩
    · intro U hU
      rw [h.others U hU, hthread U]
    · intro l
      rw [h.marks l, Thread.marks, hcalls, List.flatMap_cons, hm l, List.nil_append]
    · intro hk
      rw [hcalls, List.any_cons, h.reconnects hk, Bool.or_true]
  refine ⟨honly, ?_⟩
  intro l g ha hfits
  by_cases hl : lid = l
  · subst hl
    obtain ⟨hg,hr,hp⟩ := hstep g ha hfits
    obtain ⟨k,q,hq,hk,hT⟩ := h.fresh ((hrest lid).trans hr)
    have hexp : Explains c₀ t T m lid k := by
      obtain ⟨rfl,-⟩ | ⟨rfl,-⟩ := hq
      · trivial
      · simp [Explains, hcalls, hk rfl]
    refine ⟨some (.thread T, q), ha.become honly.others hg hT, Or.inr ⟨k, hexp, ?_⟩⟩
    have hparty : c'.party lid (some (.thread T, q)) = c.party lid (some (.thread T, q)) := by
      simp only [Client.party, h.offline, h.lock, h.cache]
    rw [hparty, h.table]
    exact hp k q hq
  · apply follows_same honly ha
    · rw [h.other l hl, hrest l, roles_top hcalls l, hf l hl, List.nil_append]
    · rw [h.lock l, hlock l hl]
    · rw [h.cache, hcache l hl]
    · rw [h.table]

/-- A move that leaves every lock alone. -/
theorem same_simulates (h : OnlyThread T c c')
    (hr : ∀ l, (c'.thread T).roles l = (c.thread T).roles l) (hl : ∀ l, c'.lock l = c.lock l)
    (hc : c'.localExtent = c.localExtent) (ht : t' = t) : Simulates c t T m c' t' := by
  refine ⟨h, ?_⟩
  intro l g ha _
  apply follows_same h ha (hr l) (hl l)
  · rw [hc]
  · rw [ht]

theorem acquireEnter_simulates (hcalls : (c.thread T).calls = .acquire lid .start :: rest)
    (h : c.acquireEnter t T lid rest = .done c' t') : Simulates c t T m c' t' := by
  unfold Client.acquireEnter at h
  dsimp only at h
  split_ifs at h
  cases h
  apply same_simulates <;> try simp [Thread.roles, hcalls, AcquirePc.roles]
  constructor <;> simp_all [Thread.marks, Call.marks, Call.reconnects]

/-- A move of one lock, with which thread `T` is busy afterwards. -/
theorem become_simulates (lid : ℕ) (h : OnlyThread T c c')
    (hr : ∀ l, lid ≠ l → (c'.thread T).roles l = (c.thread T).roles l)
    (hl : ∀ l, lid ≠ l → c'.lock l = c.lock l)
    (hc : ∀ l, lid ≠ l → c'.localExtent[l]? = c.localExtent[l]?)
    (ht : ∀ l, lid ≠ l → t'[l]? = t[l]?)
    (hstep : ∀ g, c.Agents lid g → (c.party lid g).Fits →
      ∃ q k, (g = none ∨ ∃ r, g = some (.thread T, r)) ∧ (c'.thread T).roles lid = [q] ∧
        Explains c t T m lid k ∧
        PartyStep k (c.party lid g) t[lid]? (c'.party lid (some (.thread T, q))) t'[lid]?) :
    Simulates c t T m c' t' := by
  refine ⟨h, ?_⟩
  intro l g ha hfits
  by_cases hlid : lid = l
  · subst hlid
    obtain ⟨q,k,hg,hT,hk,hs⟩ := hstep g ha hfits
    exact ⟨_, ha.become h.others hg hT, Or.inr ⟨k, hk, hs⟩⟩
  · exact follows_same h ha (hr l hlid) (hl l hlid) (hc l hlid) (ht l hlid)

/-- Asking the server: the lock is unknown or stale, and no thread is busy with it. -/
theorem ask_simulates (hcalls : (c.thread T).calls = .acquire lid .check :: rest)
    (hs : (c.lock lid).state = .none ∧ c.disconnected = false ∨
      (c.lock lid).state = .free ∧ (c.lock lid).stale = true) :
    Simulates c t T m (((c.setLock lid .acquiring (c.lock lid).stale).setCalls T
      (.acquire lid .call :: rest)).setLcMutex none) t := by
  apply become_simulates lid
  · constructor <;> simp_all [Thread.marks, Call.marks, Call.reconnects]
  · intro l hl; simp [Thread.roles, hcalls, hl]
  · intro l hl; simp [hl]
  · intro l hl; simp
  · intro l hl; rfl
  · intro g ha hfits
    have hg : g = none := fits_idle hfits (hs.imp And.left And.left)
    subst hg
    have hr := agents_none ha hcalls
    refine ⟨.asking, .plain, Or.inl rfl, ?_, trivial, ?_⟩
    · simpa [Thread.roles, AcquirePc.roles, restRoles] using hr
    · rw [party_setLcMutex, party_setCalls, party_setLock]
      exact .ask hs

/-- A client that resolves a conflict is connected. -/
theorem fit_resolve (hfit : c.Fit) {stage : Stage} (h : .resolve l stage ∈ (c.thread T).calls) :
    c.disconnected = false := by
  obtain ⟨g,ha,hf⟩ := hfit l
  have hr : stage.role ∈ (c.thread T).roles l := by
    apply List.mem_append_left
    refine List.mem_flatMap.mpr ⟨_, h, ?_⟩
    simp 
  obtain ⟨rfl,-⟩ := agents_single ha rfl hr
  rcases stage_role stage with hs | hs <;> rw [hs] at hf <;> exact hf.1

theorem acquireCheck_simulates (hfit : c.Fit)
    (hcalls : (c.thread T).calls = .acquire lid .check :: rest)
    (h : c.acquireCheck t T lid rest = .done c' t') : Simulates c t T m c' t' := by
  unfold Client.acquireCheck at h
  dsimp only at h
  split_ifs at h with h1 h2 h3
  · cases h
    apply same_simulates <;> try simp [Thread.roles, hcalls, AcquirePc.roles]
    constructor <;> simp_all [Thread.marks, Call.marks, Call.reconnects]
  · -- offline and without the lock: the caller cannot be in the middle of resolving a conflict
    unfold Client.acquireDone at h
    split at h
    · cases h
      apply same_simulates <;> try simp [Thread.roles, hcalls, AcquirePc.roles]
      constructor <;> simp_all [Thread.marks, Call.marks, Call.reconnects]
    · rename_i n rest
      have hmem : .resolve n .acquireNew ∈ (c.thread T).calls := by simp [hcalls]
      rw [fit_resolve hfit hmem] at h2
      simp at h2
    all_goals simp at h
  · cases h
    apply ask_simulates hcalls
    by_cases hn : (c.lock lid).state = .none
    · left
      refine ⟨hn, ?_⟩
      simpa [hn] using h2
    · right
      grind
  · have hfree : (c.lock lid).state = .free := by grind
    have hst : (c.lock lid).stale = false := by grind
    refine acquired_simulates hcalls ?_ ?_ ?_ ?_ ?_ ?_ (acquireDone_acquired h (by simp)) ?_
    · intro l hl; simp [hl]
    · intro l; rfl
    · intro U; simp
    · intro l hl; simp [hl]
    · simp
    · simp
    · intro g ha hfits
      have hg : g = none := fits_idle hfits (Or.inr hfree)
      subst hg
      refine ⟨Or.inl rfl, agents_none ha hcalls, ?_⟩
      intro k q hq
      have hp : c.party lid none = ⟨c.disconnected, .free, false, c.localExtent[lid]?, none⟩ := by
        simp only [Client.party, hfree, hst]
      rw [hp, party_setLock, hst]
      exact .take hq

theorem compareVersion_agrees {e : Entry} (h : compareVersion e t l = some true) :
    e.Agrees t[l]? := by
  unfold compareVersion Table.getattr at h
  rcases ht : t[l]? with _ | f <;> simp_all [Entry.Agrees]

/-- `lock_acquired` and the return of `acquire_wo`, for a lock the server has granted. -/
theorem lockAcquired_simulates (hoff : c.disconnected = false)
    (hs : (c.lock lid).state ≠ .releasing)
    (hcalls : (c.thread T).calls = .acquire lid (.reply .ok) :: rest)
    (h : (c.setLcMutex (some T)).lockAcquired t T lid rest = some (.done c' t')) :
    Simulates c t T .wake c' t' := by
  have hp : ∀ b g, (c.lock lid).stale = b →
      c.party lid g = ⟨false, (c.lock lid).state, b, c.localExtent[lid]?, g⟩ := by
    intro b g hb
    simp only [Client.party, hoff, hb]
  -- what is common to the four ways to end up with the lock
  have hlocked : ∀ cache, (∀ l, lid ≠ l → cache[l]? = c.localExtent[l]?) →
      (∀ k q, Role.Fresh k q → PartyStep k (c.party lid (some (.thread T, .granted))) t[lid]?
          ⟨false, .locked, false, cache[lid]?, some (.thread T, q)⟩ t[lid]?) →
      (((c.setLcMutex (some T)).setCache cache).setLock lid .locked false).acquireDone t T lid .ok
        rest = .done c' t' → Simulates c t T .wake c' t' := by
    intro cache hcache hstep hd
    refine acquired_simulates hcalls ?_ ?_ ?_ ?_ ?_ ?_ (acquireDone_acquired hd (by simp)) ?_
    · intro l hl; simp [hl]
    · intro l; rfl
    · intro U; simp
    · intro l hl; simp [hl]
    · intro l hl; simpa using hcache l hl
    · rfl
    · intro g ha hfits
      obtain ⟨rfl,hr⟩ := agents_top ha hcalls (acquire_roles _ _)
      refine ⟨Or.inr ⟨_, rfl⟩, hr, ?_⟩
      intro k q hq
      rw [party_setLock, offline_setCache, offline_setLcMutex, hoff]
      exact hstep k q hq
  unfold Client.lockAcquired at h
  dsimp only at h
  split_ifs at h with hst hec
  · split at h
    · rename_i hcopy
      refine hlocked c.localExtent (fun _ _ => rfl) ?_ (Option.some.inj h)
      intro k q hq
      rw [hp true _ hst]
      exact .grantStale hq (Or.inl hcopy)
    · rename_i e hcopy
      split_ifs at h with hdirty
      · split at h
        · cases h
        · rename_i hcmp
          refine hlocked c.localExtent (fun _ _ => rfl) ?_ (Option.some.inj h)
          intro k q hq
          rw [hp true _ hst]
          exact .grantStale hq (Or.inr ⟨e, hcopy, hcopy, compareVersion_agrees hcmp⟩)
        · rename_i hcmp
          cases h
          apply become_simulates lid
          · constructor <;> simp_all [Thread.marks, Call.marks, Call.reconnects]
          · intro l hl; simp [Thread.roles, hcalls, hl, Stage.holds]
          · intro l hl; simp
          · intro l hl; simp
          · intro l hl; rfl
          · intro g ha hfits
            obtain ⟨rfl,hr⟩ := agents_top ha hcalls (acquire_roles _ _)
            refine ⟨.resolving, .conflict, Or.inr ⟨_, rfl⟩, ?_, ⟨rfl, rest, e, hcalls,
              hcopy, hcmp⟩, ?_⟩
            · simpa [Thread.roles, Stage.role, Stage.holds, restRoles] using hr
            · rw [party_setCalls, party_setLcMutex, hp true _ hst, hp true _ hst]
              exact .conflict
      · refine hlocked (c.localExtent.erase lid) ?_ ?_ (Option.some.inj h)
        · intro l hl; simp [hl]
        · intro k q hq
          rw [hp true _ hst]
          exact .grantStale hq (Or.inl (by simp))
  · refine hlocked c.localExtent (fun _ _ => rfl) ?_ (Option.some.inj h)
    intro k q hq
    rw [hp false _ (by simpa using hst)]
    exact .grant hq hs

theorem acquireReply_simulates (hfit : c.Fit) {r : Reply}
    (hcalls : (c.thread T).calls = .acquire lid (.reply r) :: rest)
    (h : (c.setLcMutex (some T)).acquireReply t T lid r rest = some (.done c' t')) :
    Simulates c t T .wake c' t' := by
  -- a reply is only under way to a connected client, in one of the states that fit
  obtain ⟨g₀,hg₀,hf₀⟩ := hfit lid
  have hoff : c.disconnected = false := by
    cases r <;> obtain ⟨rfl,-⟩ := agents_top hg₀ hcalls (acquire_roles _ _) <;> exact hf₀.1
  have hp : ∀ g, c.party lid g =
      ⟨false, (c.lock lid).state, (c.lock lid).stale, c.localExtent[lid]?, g⟩ := by
    intro g
    simp only [Client.party, hoff]
  unfold Client.acquireReply at h
  dsimp only at h
  split_ifs at h with hd
  · rw [offline_setLcMutex, hoff] at hd
    cases hd
  · split at h
    · rename_i hs
      rw [lock_setLcMutex] at hs
      exact lockAcquired_simulates hoff (by simp [hs]) hcalls h
    · rename_i hs
      rw [lock_setLcMutex] at hs
      exact lockAcquired_simulates hoff (by simp [hs]) hcalls h
    · rename_i hs
      cases h
      apply become_simulates lid
      · constructor <;> simp_all [Thread.marks, Call.marks, Call.reconnects]
      · intro l hl; simp [Thread.roles, hcalls, hl]
      · intro l hl; simp [hl]
      · intro l hl; simp
      · intro l hl; rfl
      · intro g ha hfits
        obtain ⟨rfl,hr⟩ := agents_top ha hcalls (acquire_roles _ _)
        refine ⟨.sleeping, .plain, Or.inr ⟨_, rfl⟩, ?_, trivial, ?_⟩
        · simpa [Thread.roles, AcquirePc.roles, restRoles] using hr
        · rw [party_setLcMutex, party_setCalls, party_setLock, hp,
            show (c.lock lid).state = _ from hs,
            offline_setLcMutex, hoff]
          exact .sleep
    · rename_i hs
      cases h
      apply become_simulates lid
      · constructor <;> simp_all [Thread.marks, Call.marks, Call.reconnects]
      · intro l hl; simp [Thread.roles, hcalls, hl]
      · intro l hl; simp [hl]
      · intro l hl; simp
      · intro l hl; rfl
      · intro g ha hfits
        obtain ⟨rfl,hr⟩ := agents_top ha hcalls (acquire_roles _ _)
        refine ⟨.asking, .plain, Or.inr ⟨_, rfl⟩, ?_, trivial, ?_⟩
        · simpa [Thread.roles, AcquirePc.roles, restRoles] using hr
        · rw [party_setLcMutex, party_setCalls, party_setLock, hp,
            show (c.lock lid).state = _ from hs,
            offline_setLcMutex, hoff]
          exact .again
    · rename_i r _ _ hs1 hs2 hs3 hs4
      refine acquired_simulates hcalls ?_ ?_ ?_ ?_ ?_ ?_
        (acquireDone_acquired (Option.some.inj h) (by cases r <;> simp [Reply.status])) ?_
      · intro l hl; simp [hl]
      · intro l; rfl
      · intro U; simp
      · intro l hl; simp
      · intro l hl; simp
      · rfl
      · intro g ha hfits
        cases r with
        | retry =>
          obtain ⟨rfl,-⟩ := agents_top ha hcalls (acquire_roles _ _)
          rcases hfits.2 with hs | hs
          · exact absurd hs (fun h => hs3 h rfl)
          · exact absurd hs (fun h => hs4 h rfl)
        | ok =>
          obtain ⟨rfl,hr⟩ := agents_top ha hcalls (acquire_roles _ _)
          refine ⟨Or.inr ⟨_, rfl⟩, hr, ?_⟩
          intro k q hq
          have hs : (c.lock lid).state = .releasing := by
            rcases hfits.2 with hs | hs
            · exact absurd hs (fun h => hs1 h rfl)
            · exact hs.1
          rw [party_setLcMutex, hp, hp, hs]
          exact .grantRevoked hq

/-- A move that ends thread `T`'s business with the lock `lid`, and for every other lock follows
the protocol or leaves it as it is. -/
theorem leave_simulates (lid : ℕ) (h : OnlyThread T c c') (hr : (c.thread T).roles lid = [r])
    (hT : (c'.thread T).roles lid = [])
    (hstep : ∃ k, Explains c t T m lid k ∧
      PartyStep k (c.party lid (some (.thread T, r))) t[lid]? (c'.party lid none) t'[lid]?)
    (hother : ∀ l g, lid ≠ l → c.Agents l g → (c.party l g).Fits →
      Follows (Explains c t T m l) c t c' t' l g) :
    Simulates c t T m c' t' := by
  refine ⟨h, ?_⟩
  intro l g ha hfits
  by_cases hl : lid = l
  · subst hl
    obtain ⟨rfl,-⟩ := agents_single ha hr (List.mem_singleton_self _)
    exact ⟨none, ha.leave h.others hT, Or.inr hstep⟩
  · exact hother l g hl ha hfits

/-- `release_wo(lid)` returns to its caller, after the client `c₀` has become `c` by changing only
the state of `lid`. -/
theorem releaseDone_simulates (hfit : c₀.Fit) (hcalls : (c₀.thread T).calls = f :: rest)
    (hr : f.roles lid = [r]) (hf : ∀ l, lid ≠ l → f.roles l = []) (hm : ∀ l, f.marks l = [])
    (hthread : ∀ U, c.thread U = c₀.thread U) (hlock : ∀ l, lid ≠ l → c.lock l = c₀.lock l)
    (hcache : c.localExtent = c₀.localExtent) (hoff : c.disconnected = c₀.disconnected)
    (hstep : ∃ k, Explains c₀ t T m lid k ∧
      PartyStep k (c₀.party lid (some (.thread T, r))) t[lid]? (c.party lid none) t[lid]?)
    (h : c.releaseDone t T rest = .done c' t') : Simulates c₀ t T m c' t' := by
  obtain ⟨g₀,hg₀,-⟩ := hfit lid
  obtain ⟨-,hrest⟩ := agents_top hg₀ hcalls hr
  have hrl : (c₀.thread T).roles lid = [r] := by
    rw [roles_top hcalls, hr, hrest, List.append_nil]
  have hro : ∀ l, lid ≠ l → (c₀.thread T).roles l = restRoles c₀ T rest l := by
    intro l hl
    rw [roles_top hcalls, hf l hl, List.nil_append]
  have hset : ∀ calls l, ((c.setCalls T calls).thread T).roles l = restRoles c₀ T calls l := by
    intro calls l
    rw [roles_setCalls, restRoles_congr (hthread T)]
  -- the callers that do nothing with another lock
  have hback : ∀ rest' mutex, (∀ l, stackRoles rest' l = stackRoles rest l) →
      (∀ l, rest'.flatMap (Call.marks l) = rest.flatMap (Call.marks l)) →
      rest'.any Call.reconnects = rest.any Call.reconnects →
      Simulates c₀ t T m ((c.setCalls T rest').setLcMutex mutex) t := by
    intro rest' mutex h1 h2 h3
    have hsame : ∀ l, restRoles c₀ T rest' l = restRoles c₀ T rest l := by
      intro l
      simp only [restRoles, h1]
    have honly : OnlyThread T c₀ ((c.setCalls T rest').setLcMutex mutex) := by
      constructor <;> simp_all [Thread.marks]
    apply leave_simulates lid honly hrl
    · rw [thread_setLcMutex, hset, hsame, hrest]
    · exact hstep
    · intro l g hl ha _
      apply follows_same honly ha
      · rw [thread_setLcMutex, hset, hsame, hro l hl]
      · simpa using hlock l hl
      · simp [hcache]
      · rfl
  unfold Client.releaseDone at h
  split at h
  · cases h
    exact hback [] none (fun _ => rfl) (fun _ => rfl) rfl
  · cases h
    exact hback _ c.lcMutex (fun _ => rfl) (fun _ => rfl) rfl
  · -- the directory is released, the copy is next
    rename_i l₁ n rest₁
    cases h
    have hn : n ≠ lid := by
      rintro rfl
      simp [Stage.holds] at hrest
    have honly : OnlyThread T c₀ (c.setCalls T
        (.release n .start :: .resolve l₁ .releaseCopy :: rest₁)) := by
      constructor <;> simp_all [Thread.marks, Call.marks, Call.reconnects]
    apply leave_simulates lid honly hrl
    · rw [hset]
      simpa [Stage.role, Stage.holds, hn] using hrest
    · exact hstep
    · intro l g hl ha _
      by_cases hnl : n = l
      · subst hnl
        obtain ⟨rfl,hone⟩ := agents_single (r := .holding true) ha (hro n hl)
          (by simp [Stage.holds])
        refine ⟨some (.thread T, .leaving), ha.become honly.others (Or.inr ⟨_, rfl⟩) ?_,
          Or.inr ⟨.quit true, Or.inr ⟨l₁, .releaseTmp n, by simp [hcalls]⟩, ?_⟩⟩
        · rw [hset]
          by_cases hl₁ : l₁ = n <;> simp_all [Stage.role, Stage.holds, ReleasePc.role]
        · rw [party_setCalls]
          simp only [Client.party, hlock n hl, hcache, hoff]
          exact .leave
      · apply follows_same honly ha
        · rw [hset, hro l hl]
          simp [Stage.role, Stage.holds, hnl]
        · simpa using hlock l hl
        · simp [hcache]
        · rfl
  · -- `lock_acquired` ends, and with it the `acquire_wo` that called it
    rename_i l₁ rest₁
    have hA := acquireDone_acquired h (by simp)
    have hl₁ : l₁ ≠ lid := by
      rintro rfl
      simp [Stage.role] at hrest
    have hsame : ∀ l, restRoles (c.setLock l₁ .locked false) T rest₁ l = restRoles c₀ T rest₁ l :=
      restRoles_congr (hthread T) rest₁
    have honly : OnlyThread T c₀ c' := by
      refine ⟨?_, ?_, ?_, hA.offline.trans hoff⟩
      · intro U hU
        rw [hA.others U hU, thread_setLock, hthread U]
      · intro l
        rw [hA.marks l, Thread.marks, hcalls]
        simp [hm l]
      · intro hk
        simp [hcalls, hA.reconnects hk]
    apply leave_simulates lid honly hrl
    · rw [hA.other lid hl₁, hsame]
      simpa [Stage.holds, hl₁] using hrest
    · obtain ⟨k,hk,hs⟩ := hstep
      refine ⟨k, hk, ?_⟩
      have : c'.party lid none = c.party lid none := by
        simp [Client.party, hA.offline, hA.lock, hA.cache, hl₁]
      rw [this, hA.table]
      exact hs
    · intro l g hl ha _
      by_cases hll : l₁ = l
      · subst hll
        obtain ⟨rfl,hone⟩ := agents_single (r := .dropped) ha (hro l₁ hl)
          (by simp [Stage.role])
        obtain ⟨k,q,hq,-,hT⟩ := hA.fresh (by rw [hsame]; simpa [Stage.role, Stage.holds] using hone)
        refine ⟨some (.thread T, q), ha.become honly.others (Or.inr ⟨_, rfl⟩) hT,
          Or.inr ⟨.resolve, ⟨l₁, .releaseCopy, by simp [hcalls]⟩, ?_⟩⟩
        have : c'.party l₁ (some (.thread T, q)) =
            ⟨c₀.disconnected, .locked, false, c₀.localExtent[l₁]?, some (.thread T, q)⟩ := by
          simp [Client.party, hA.offline, hA.lock, hA.cache, hoff, hcache]
        rw [this, hA.table]
        exact .resolved hq
      · apply follows_same honly ha
        · rw [hA.other l hll, hsame, hro l hl]
          simp [Stage.holds, hll]
        · rw [hA.lock]
          simpa [hll] using hlock l hl
        · rw [hA.cache]
          simp [hcache]
        · rw [hA.table]
  · cases h
    exact hback _ c.lcMutex (fun _ => rfl) (fun _ => rfl) rfl
  · cases h

end

end DisconnectedYfs.YFS
