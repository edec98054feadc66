import DisconnectedYfs.YFSNames

/-! What becomes of a file that is unlinked. `unlink` never loads the extent of the file: it can
only remove a copy that its client had before, and the server's extent goes when the lock is given
back without one. -/
namespace DisconnectedYfs.YFS
open Std

/-- The client has a copy, and a lock that it can keep. -/
def Party.Kept (p : Party) : Prop := p.copy ≠ none ∧ (p.state = .free ∨ p.state = .locked)

section Protocol
variable {v v' : LockView} {k : LockEvent} {A : ℕ}

theorem kept_partyStep {k : Kind} {p p' : Party} {x x' : Option FInfo}
    (h : PartyStep k p x p' x') (hb : p.Bound x) (hon : p.offline = false ∧ p.stale = false)
    (hk : k ≠ .resolve) (hp : p.Kept) : p'.Kept ∨ k = .unlinked := by
  obtain ⟨hcopy,hstate⟩ := hp
  obtain ⟨hoff,hst⟩ := hon
  -- who waits for the lock has no copy
  have hbare : ∀ a r, p.agent = some (a, r) → r.Bare → False := by
    intro a r ha hr
    exact hcopy (hb.bare a r ha hr)
  cases h
  case unlinkRemove => exact Or.inr rfl
  case drop | resolved | touch | fetch | probed | copy => exact absurd rfl hk
  case sleep | again | wake | grant | grantStale | grantRevoked | conflict | done =>
    exact absurd (hbare _ _ rfl (by simp [Role.Bare])) id
  all_goals
    left
    simp_all [Party.Kept]

/-- The copy stays until the lock is revoked or the copy is removed. -/
theorem kept_step (hg : Good v) (hon : v.Online) (hb : v.Bound) (hk : k.Connected)
    (h : LockStep k v v') (hp : (v.party A).Kept) :
    (v'.party A).Kept ∨ k = .revoke A ∨ k = .party A .unlinked := by
  have hbare : ∀ a r, (v.party A).agent = some (a, r) → r.Bare → False := by
    intro a r ha hr
    exact hp.1 ((hb A).bare a r ha hr)
  have hstate := hp.2
  -- a step of another party, or one that waits
  have hset : ∀ B r T q, (v.party B).agent = some (T, q) → q.Bare →
      ((v.setAgent B r).party A).Kept := by
    intro B r T q hB hq
    simp only [LockView.setAgent, setParty_party]
    split_ifs with hAB
    · subst hAB
      exact absurd (hbare _ _ hB hq) id
    · exact hp
  cases h with
  | @party _ B k p x hps =>
    simp only [setParty_party]
    split_ifs with hAB
    · subst hAB
      have hkind : k ≠ .resolve := by
        rintro rfl
        exact hk.2 A rfl
      rcases kept_partyStep hps (hb A) (hon A) hkind hp with h | rfl
      · exact Or.inl h
      · exact Or.inr (Or.inr rfl)
    · exact Or.inl hp
  | grant ha | wait ha | firstWait ha | release ha =>
    exact Or.inl (hset _ _ _ _ ha (by simp [Role.Bare]))
  | @handlerRelease _ B T o ha ho => exact Or.inl (hset _ _ _ _ ha (by simp [Role.Bare]))
  | @revokeBusy _ B T o hm hs =>
    by_cases hAo : o = A
    · exact Or.inr (Or.inl (by rw [hAo]))
    left
    have hB := (hg.marked B T o .sent (by simp [hm])).2
    simp only [LockView.setAgent, setMark_party, setParty_party]
    split_ifs with h1 h2 h3
    · exact absurd (h1.trans h2).symm hAo
    · subst h1
      exact absurd (hbare _ _ hB (by simp [Role.Bare])) id
    · exact absurd h3.symm hAo
    · exact hp
  | @revokeFree _ B T o cp x hm ho hx =>
    by_cases hAo : o = A
    · exact Or.inr (Or.inl (by rw [hAo]))
    left
    simp only [setMark_party, setParty_party]
    rw [if_neg (Ne.symm hAo)]
    exact hp
  | @revoked _ B T o ha hB =>
    left
    simp only [LockView.setAgent, setMark_party, setParty_party]
    split_ifs with h1 h2 h3
    · subst h1
      exact absurd (hbare _ _ hB (by simp [Role.Bare])) id
    · subst h1
      exact absurd (hbare _ _ hB (by simp [Role.Bare])) id
    · subst h3
      exact absurd (hbare _ _ ha (by simp [Role.Bare])) id
    · exact hp
  | @retry _ B s hpend hs =>
    left
    simp only [setParty_party]
    split_ifs with hAB
    · subst hAB
      rcases hs with ⟨hs,-⟩ | ⟨hs,-⟩ <;> rw [hs] at hstate <;> simp at hstate
    · exact hp
  | disconnect | disconnectOther => exact absurd rfl (hk.1 _)

theorem idle_partyStep {k : Kind} {p p' : Party} {x x' : Option FInfo}
    (h : PartyStep k p x p' x') (ho : p.Owns) (hk : k ≠ .resolve) (hcopy : p.copy = none)
    (ha : p.agent = none ∨ ∃ T, p.agent = some (.thread T, .leaving)) :
    x' = x ∧ p'.copy = none ∧ (p'.agent = none ∨ ∃ T, p'.agent = some (.thread T, .leaving)) ∨
    x' = none ∧ p'.copy = none ∨ ∃ T, p'.agent = some (.thread T, .holding false) := by
  cases h
  case take T r hr =>
    obtain ⟨-,rfl⟩ | ⟨-,rfl⟩ := hr
    · exact Or.inr (Or.inr ⟨T, rfl⟩)
    · exact Or.inl ⟨rfl, hcopy, Or.inr ⟨T, rfl⟩⟩
  case flush hf =>
    right
    left
    obtain ⟨-,hx⟩ | ⟨e,he,-⟩ | ⟨e,f,he,-⟩ := hf
    · exact ⟨hx, rfl⟩
    · exact absurd (he.symm.trans hcopy) (by simp)
    · exact absurd (he.symm.trans hcopy) (by simp)
  all_goals simp_all [Party.Owns]

/-- The owner of such a lock goes on giving it back, or loses the extent, or takes the lock
again. -/
theorem doomed_next (hg : Good v) (hk : k.Connected) (h : LockStep k v v') (hd : v.Doomed A) :
    v'.Doomed A ∨ v'.extent = none ∧ (v'.party A).copy = none ∨
    ∃ T, (v'.party A).agent = some (.thread T, .holding false) := by
  obtain ⟨howner,hcopy,hx,hagent⟩ := hd
  have howns := (hg.owner A).mp howner
  have hquiet : ∀ a r, (v.party A).agent = some (a, r) → r = .leaving := by
    intro a r ha
    rcases hagent with h | ⟨T,h⟩ <;> rw [ha] at h <;> cases h
    rfl
  -- the agent of another party changes
  have hset : ∀ {B r a q}, (v.party B).agent = some (a, q) → q ≠ .leaving →
      (v.setAgent B r).party A = v.party A := by
    intro B r a q hB hq
    simp only [LockView.setAgent, setParty_party]
    split_ifs with hAB
    · subst hAB
      exact absurd (hquiet _ _ hB) hq
    · rfl
  have hstay : v'.owner = v.owner → v'.extent = v.extent →
    v'.party A = v.party A → v'.Doomed A := by
    intro h1 h2 h3
    unfold LockView.Doomed
    rw [h1, h2, h3]
    exact ⟨howner, hcopy, hx, hagent⟩
  cases h with
  | @party _ B k p x hps =>
    by_cases hAB : A = B
    · subst hAB
      have hkind : k ≠ .resolve := by
        rintro rfl
        exact hk.2 A rfl
      unfold LockView.Doomed
      simp only [setParty_party, setParty_owner, if_true]
      rcases idle_partyStep hps howns hkind hcopy hagent with ⟨rfl,h1,h2⟩ | h1 | h1
      · exact Or.inl ⟨howner, h1, hx, h2⟩
      · exact Or.inr (Or.inl h1)
      · exact Or.inr (Or.inr h1)
    · left
      have hparty : ((v.setParty B p).party A) = v.party A := by
        rw [setParty_party, if_neg hAB]
      rcases partyStep_extent hps with hsame | ho
      · exact hstay rfl hsame hparty
      · exact absurd ho (others_not_own hg howner B (Ne.symm hAB))
  | grant ha ho =>
    rw [howner] at ho
    cases ho
  | wait ha | firstWait ha => exact Or.inl (hstay rfl rfl (hset ha (by simp)))
  | @release _ B T ha ho | @handlerRelease _ B T o ha ho =>
    obtain rfl := Option.some.inj (howner.symm.trans ho)
    exact absurd (hquiet _ _ ha) (by simp)
  | @revokeBusy _ B T o hm hs =>
    left
    have hmem : (o, Phase.sent) ∈ v.mark B T := by simp [hm]
    have hB := (hg.marked B T o .sent hmem).2
    obtain rfl := Option.some.inj (howner.symm.trans (hg.sent B T o hmem).1)
    have hne := mark_ne hg hmem
    unfold LockView.Doomed
    simp only [LockView.setAgent, setMark_party, setParty_party, setMark_owner, setParty_owner,
      setMark_extent, setParty_extent, if_true, if_neg (Ne.symm hne)]
    rw [if_neg hne]
    exact ⟨howner, hcopy, hx, hagent⟩
  | @revokeFree _ B T o cp x hm ho hf =>
    right
    left
    obtain rfl := Option.some.inj (howner.symm.trans (hg.sent B T o (by simp [hm])).1)
    rw [ho] at hcopy
    obtain rfl : cp = none := hcopy
    refine ⟨?_, by simp⟩
    obtain ⟨-,hx⟩ | ⟨e,he,-⟩ | ⟨e,f,he,-⟩ := hf
    · exact hx
    · cases he
    · cases he
  | @revoked _ B T o ha hB =>
    have hno : ∀ {C a q}, (v.party C).agent = some (a, q) → q ≠ .leaving → C ≠ A := by
      rintro C a q hC hq rfl
      exact hq (hquiet _ _ hC)
    refine Or.inl (hstay rfl rfl ?_)
    simp only [LockView.setAgent, setMark_party, setParty_party]
    rw [if_neg (Ne.symm (hno hB (by simp))), if_neg (Ne.symm (hno ha (by simp)))]
  | @retry _ B s hp hs =>
    refine Or.inl (hstay rfl rfl ?_)
    rw [setParty_party, if_neg]
    rintro rfl
    -- the owner is not asking for the lock
    have hfits := hg.fits A
    unfold Party.Fits at hfits
    rcases hagent with ha | ⟨T,ha⟩
    · rw [ha] at hfits
      rcases hs with ⟨hs,-⟩ | ⟨hs,-⟩ <;> rw [hs] at hfits <;> simp at hfits
    · rw [ha] at hfits
      rcases hs with ⟨hs,-⟩ | ⟨hs,-⟩ <;> simp [hs] at hfits
  | disconnect | disconnectOther => exact absurd rfl (hk.1 _)

end Protocol

/-- The same for a client's copy and its lock. -/
def Sys.Keeps (s : Sys) (A l : ℕ) : Prop :=
  (s.client A).localExtent[l]? ≠ none ∧
    (((s.client A).lock l).state = .free ∨ ((s.client A).lock l).state = .locked)

section System
variable {s s' : Sys} {e : Event} {A l : ℕ}

theorem keeps_sys (hs : s.Ordered) (he : ∀ A, e ≠ .disconnect A) (h : s.step e = some s')
    (hk : s.Keeps A l) : s'.Keeps A l ∨
    (∃ B T rest, e = .revoke B T ∧ (s.thread B T).calls = .acquire l (.revoking A .sent) :: rest) ∨
    ∃ T, e = .client A T (.unlinkRemove l) := by
  obtain ⟨g,ht,ho⟩ := hs.lock l
  obtain ⟨g',-,-,heq | ⟨k,hacc,hc,hls⟩⟩ := hs.progress he h ht ho
  · left
    have hparty : ((s.view l g).party A).Kept := hk
    rw [← heq] at hparty
    exact hparty
  · rcases kept_step ho.good ho.online ho.bound hc hls (A := A) hk with h1 | rfl | rfl
    · exact Or.inl h1
    · obtain ⟨B,T,rest,rfl,hcalls⟩ := hacc
      exact Or.inr (Or.inl ⟨B, T, rest, rfl, hcalls⟩)
    · obtain ⟨T,m,rfl,rfl⟩ := hacc
      exact Or.inr (Or.inr ⟨T, rfl⟩)

theorem holding_held {read : Bool} (hs : s.Ordered) {T : ℕ}
    (hr : .holding read ∈ (s.thread A T).roles l) : (l, read) ∈ (s.thread A T).held := by
  rcases List.mem_append.mp hr with hr | hr
  · obtain ⟨f,hf,hrole⟩ := List.mem_flatMap.mp hr
    generalize hread : Role.holding read = r at hrole
    cases call_plays hrole with
    | acquire hpc =>
      subst hread
      simpa using acquire_role hpc
    | release pc => cases pc <;> cases hread
    | resolve | hold => exact absurd hf (fun h => hs.no_resolve h)
    | load => cases hread
  · obtain ⟨x,hx,heq⟩ := List.mem_map.mp hr
    obtain ⟨hmem,hl⟩ := List.mem_filter.mp hx
    obtain ⟨i,r⟩ := x
    obtain rfl : i = l := by simpa using hl
    cases heq
    exact hmem

theorem doomed_sys_next (hs : s.Ordered) (he : ∀ A, e ≠ .disconnect A) (h : s.step e = some s')
    (hs' : s'.Ordered) (hd : s.DoomedBy l A) : s'.DoomedBy l A ∨
    s'.table[l]? = none ∧ (s'.client A).localExtent[l]? = none ∨
    ∃ T, (l, false) ∈ (s'.thread A T).held := by
  obtain ⟨g,ht,ho⟩ := hs.lock l
  obtain ⟨g',ht',ho',heq | ⟨k,-,hc,hls⟩⟩ := hs.progress he h ht ho
  · left
    have hdoomed := (doomed_iff ht ho).mpr hd
    rw [← heq] at hdoomed
    exact (doomed_iff ht' ho').mp hdoomed
  · rcases doomed_next ho.good hc hls ((doomed_iff ht ho).mpr hd) with h1 | h1 | ⟨T,hT⟩
    · exact Or.inl ((doomed_iff ht' ho').mp h1)
    · exact Or.inr (Or.inl h1)
    · right
      right
      refine ⟨T, holding_held hs' ?_⟩
      have hagent : g' A = some (.thread T, .holding false) := hT
      rw [show (s'.thread A T).roles l = slot (g' A) T from ht'.agents A T, hagent]
      simp [slot]

/-- With a copy the lock is cached, if nobody uses it. -/
theorem free_idle (hs : s.Ordered) (hroles : ∀ T, (s.thread A T).roles l = [])
    (hcopy : (s.client A).localExtent[l]? ≠ none) : ((s.client A).lock l).state = .free := by
  obtain ⟨g,ht,ho⟩ := hs.lock l
  have howns : ((s.view l g).party A).Owns := (ho.bound A).kept hcopy
  have hagent : ((s.view l g).party A).agent = none := by
    rcases hg : g A with _ | ⟨a,r⟩
    · exact hg
    have hgA : ((s.view l g).party A).agent = some (a, r) := hg
    cases a with
    | thread T =>
      have hslot := ht.agents A T
      rw [hg] at hslot
      have hr : (s.thread A T).roles l = [r] := hslot.trans (by simp [slot])
      rw [hroles T] at hr
      cases hr
    | handler B T =>
      have hfits := ho.good.fits A
      unfold Party.Fits at hfits
      rw [hgA] at hfits
      have hbare : r.Bare := by
        rcases hfits.1 with rfl | rfl <;> simp [Role.Bare]
      exact absurd ((ho.bound A).bare _ _ hgA hbare) hcopy
  unfold Party.Owns at howns
  rw [hagent] at howns
  exact howns.2.1

end System

/-- The file whose lock an `unlink` has asked for, and that it has not removed yet. -/
def Task.file : Task → Option ℕ
  | ⟨.unlink p _, .acquire l _, called⟩ => if called ∧ l ≠ p then some l else none
  | ⟨.unlink _ _, p, _⟩ => p.removes
  | _ => none

/-- `unlink` asks for the lock of a file only if its client has a copy of the file, and the lock is
not revoked before the copy is removed. After that the client does not take the lock again as long
as the server has the file. -/
def Fs.sparesFiles (s : Fs) : FsEvent → Bool
  | .call A =>
    match s.task A with
    | some ⟨op, .acquire l k, false⟩ =>
      (s.sys.client A).localExtent[l]?.isSome ||
        (({ op := op, prog := .acquire l k, called := true } : Task).file ≠ some l &&
          !(((s.sys.client A).lock l).state = .free && s.sys.table[l]?.isSome))
    | _ => true
  | .inner (.revoke B T) =>
    match (s.sys.thread B T).calls with
    | .acquire l (.revoking o .sent) :: _ => (s.task o).all (fun j => j.file ≠ some l)
    | _ => true
  | _ => true

/-- Under that condition an `unlink` keeps its copy, and nobody asks for a lock whose extent he is
about to lose. -/
structure Fs.Sparing (s : Fs) : Prop where
  kept : ∀ A j f, (s.sys.client A).aborted = false → s.task A = some j → j.file = some f →
    s.sys.Keeps A f
  asked : ∀ A op l k, (s.sys.client A).aborted = false → s.task A = some ⟨op, .acquire l k, true⟩ →
    ¬ s.sys.DoomedBy l A

section
variable {s s' : Fs} {κ κ' : ℕ → Knowledge} {e : FsEvent} {A f l : ℕ} {op : Op} {p p' : Prog}
  {K K' : Knowledge} {name : Str} {j : Task} {c : Bool}

theorem file_of_removes (hp : p.removes = some f) (hop : op = .unlink op.main name) (c : Bool) :
    (⟨op, p, c⟩ : Task).file = some f := by
  rw [hop]
  cases p with
  | acquire => cases hp
  | _ => exact hp

/-- An `unlink` that is going to remove a file has come to it, or asks for its lock. -/
theorem file_cases (h : (⟨op, p, c⟩ : Task).file = some f) :
    ∃ name, op = .unlink op.main name ∧
      ((∃ k, p = .acquire f k ∧ f ≠ op.main ∧ c = true) ∨ p.removes = some f) := by
  cases op with
  | unlink m name =>
    refine ⟨name, rfl, ?_⟩
    cases p with
    | acquire l k =>
      simp only [Task.file] at h
      split_ifs at h with hc
      cases h
      exact Or.inl ⟨k, rfl, hc.2, hc.1⟩
    | _ => exact Or.inr h
  | _ => cases h

theorem removes_removing (hst : op.Stands p K) (hop : op = .unlink op.main name)
    (hp : p.removes = some f) : op.Removing f p K := by
  cases hst with
  | draw hm | tryInum hm | probe hm | reject hm | fill hm | rename hm | link hm | made hm =>
    exact absurd hop (hm.not_unlink _ _)
  | rewrite hb =>
    rw [hop] at hb
    cases hb
  | tmp hm | putRoot hm | putTmp hm | mounted hm =>
    rw [hop] at hm
    cases hm
  | erase hd hne hk hk' =>
    simp only [Prog.removes, hk] at hp
    cases hp
    exact .erase hd hne hk
  | erased hd hne hk =>
    cases hp
    exact .erased hd hne
  | unlocked hd hne hk =>
    cases hp
    exact .unlocked hd hne hk
  | remove hd hne hk =>
    cases hp
    exact .remove hd
  | _ => cases hp

theorem removing_ne (h : op.Removing f p K) (hk : K f = some .unread) : f ≠ op.main := by
  rintro rfl
  obtain ⟨-,⟨hne,-⟩ | ⟨⟨b,rfl⟩,-⟩ | rfl⟩ := removing_known h
  · exact hne rfl
  · simp at hk
  · cases hk

/-- How an operation comes to have such a file. -/
theorem file_back {a : Act} (hpath : Path op p K) (hpath' : Path op p' K')
    (hp : p.step a = some p') (hl : Learns K a K') (h : (⟨op, p', false⟩ : Task).file = some f) :
    (⟨op, p, true⟩ : Task).file = some f := by
  obtain ⟨name,hop,⟨k,-,-,hc⟩ | hrem⟩ := file_cases h
  · cases hc
  · have hr := removes_removing (path_stands hpath') hop hrem
    rcases removing_back (path_stands hpath) hp hl hr with hr | ⟨-,k,rfl⟩
    · exact file_of_removes (removing_removes hr) hop true
    · cases step_steps hp
      cases hl
      have hne := removing_ne hr (Function.update_self _ _ _)
      rw [hop]
      rw [hop] at hne
      exact if_pos ⟨rfl, hne⟩

/-- The process is busy after the call of `acquire`. -/
theorem acquire_busy {sys : Sys} (h : s.Inv κ) (hc : (s.sys.thread A 0).calls = [])
    (hsys : s.sys.step (.client A 0 (.callAcquire l)) = some sys) : sys.busy A := by
  obtain rfl | ⟨⟨a,b,heq⟩,-⟩ | ⟨c',hc',hdoes,-⟩ :=
    client_does h.ordered (Or.inl hc) (by simp) hsys
  · left
    rw [client_setClient, if_pos rfl]
  · cases heq
  · right
    unfold Sys.thread
    rw [hc', if_pos rfl]
    generalize hy : c'.localAt sys.table 0 = y at hdoes
    have hth : c'.thread 0 = y.th := by rw [← hy]; rfl
    rw [hth]
    cases hdoes with
    | callAcquire => simp
    | acquiring => simp
    | acquired hc' | released hc' => 
      have hnil : ((s.sys.client A).localAt s.sys.table 0).th.calls = [] := hc
      rw [hnil] at hc'
      cases hc'

/-- A thread that is between two calls and does not have the lock. -/
theorem ready_roles (h : s.Inv κ) (hrun : (s.sys.client A).aborted = false)
    (htask : s.task A = some ⟨op, p, false⟩) (hk : κ A l = none) (T : ℕ) :
    (s.sys.thread A T).roles l = [] := by
  by_cases hT : T = 0
  · subst hT
    obtain ⟨-,hc,ha,-⟩ := standing_ready (h.standing A) hrun htask
    rw [Thread.roles, hc, stackRoles_nil, List.nil_append, List.eq_nil_iff_forall_not_mem]
    intro r hr
    obtain ⟨x,hx,-⟩ := List.mem_map.mp hr
    obtain ⟨hmem,hl⟩ := List.mem_filter.mp hx
    refine (ha.held l).mp ⟨x.2, ?_⟩ hk
    have hx1 : x.1 = l := by simpa using hl
    rw [← hx1]
    exact hmem
  · rw [h.single A T hT]
    simp [Thread.roles]

/-- The copy is still there after a step that neither revokes the lock nor removes the copy. -/
theorem keeps_fs (h : s.Inv κ) (hs : s.Steps e s') (hk : s.sys.Keeps A f)
    (hrev : ∀ B T rest, e = .inner (.revoke B T) →
      (s.sys.thread B T).calls ≠ .acquire f (.revoking A .sent) :: rest)
    (hrem : ∀ op k, e = .call A → s.task A ≠ some ⟨op, .remove f k, false⟩) :
    s'.sys.Keeps A f := by
  rcases fs_sys hs with ⟨heq,-⟩ | ⟨B,op,p,m,rfl,htask,hm,hsys⟩ | ⟨e',rfl,he',hsys⟩
  · rw [heq]
    exact hk
  · rcases keeps_sys h.ordered (by simp) hsys hk with h1 | ⟨_,_,_,heq,-⟩ | ⟨T,heq⟩
    · exact h1
    · cases heq
    · cases heq
      obtain ⟨k,rfl⟩ := remove_move hm
      exact absurd htask (hrem op k rfl)
  · have hdis : ∀ A, e' ≠ .disconnect A := by
      rintro A rfl
      cases he'
    rcases keeps_sys h.ordered hdis hsys hk with h1 | ⟨B,T,rest,rfl,hcalls⟩ | ⟨T,rfl⟩
    · exact h1
    · exact absurd hcalls (hrev B T rest rfl)
    · cases he'

/-- When `unlink` asks for the lock of a file, its client can keep the copy that it has. -/
theorem keeps_asked {k : Status → Prog} (h : s.Inv κ) (hrun : (s.sys.client A).aborted = false)
    (htask : s.task A = some ⟨op, .acquire f k, false⟩) (hne : f ≠ op.main)
    (hop : op = .unlink op.main name) (hcopy : (s.sys.client A).localExtent[f]? ≠ none) :
    s.sys.Keeps A f := by
  refine ⟨hcopy, Or.inl (free_idle h.ordered (ready_roles h hrun htask ?_) hcopy)⟩
  have hst := path_stands (standing_ready (h.standing A) hrun htask).1
  generalize κ A = K at hst
  cases hst with
  | enter => rfl
  | tryInum hm => exact absurd hop (hm.not_unlink _ _)
  | find => exact only_of_ne hne
  | tmp hm =>
    rw [hop] at hm
    cases hm

theorem op_no_file (op : Op) : (⟨op, op.prog, false⟩ : Task).file = none := by
  cases op <;> rfl

/-- A call that is answered, or returns, leaves the file that its operation has had. -/
theorem answered_file {sys : Sys} (hpath : Path op p (κ A))
    (ha : Answered (κ A) p (sys.client A) sys.table)
    (hp : p.step ((sys.client A).answer p) = some p')
    (hfile : (⟨op, p', false⟩ : Task).file = some f) :
    (⟨op, p, true⟩ : Task).file = some f ∧ ∀ k, p ≠ .remove f k := by
  obtain ⟨-,K',hl,-,-⟩ := ha
  refine ⟨file_back hpath (hpath.step hp hl) hp hl hfile, ?_⟩
  rintro k rfl
  -- after the removal there is nothing left to do
  have hst := path_stands hpath
  generalize κ A = K at hst hl
  cases hst with
  | remove hd hne hk =>
    cases step_steps hp with
    | remove r =>
      simp only [Client.answer] at hp
      cases hl
      rw [hk] at hfile
      obtain ⟨name,-,⟨k,h,-⟩ | h⟩ := file_cases hfile
      · cases h
      · cases h

theorem sparing_kept (h : s.Inv κ) (hsp : s.Sparing) (hc : s.sparesFiles e = true)
    (hs : s.Steps e s') (hrun' : (s'.sys.client A).aborted = false) (htask : s'.task A = some j)
    (hfile : j.file = some f) : s'.sys.Keeps A f := by
  have hrun := running_back hs A hrun'
  have hkeep := keeps_fs (A := A) (f := f) h hs
  cases hs with
  | @start B op' hnone =>
    rw [task_setTask] at htask
    split_ifs at htask with hB
    · cases htask
      rw [op_no_file] at hfile
      cases hfile
    · exact hkeep (hsp.kept A j f hrun htask hfile) (fun _ _ _ heq => by cases heq)
        (fun _ _ heq => by cases heq)
  | @draw B a b op mask k hdraw hrunB =>
    rw [task_setTask] at htask
    split_ifs at htask with hB
    · cases htask
      obtain ⟨name,-,⟨k,-,-,hfalse⟩ | hrem⟩ := file_cases hfile
      · cases hfalse
      · cases hrem
    · exact hkeep (hsp.kept A j f hrun htask hfile) (fun _ _ _ heq => by cases heq)
        (fun _ _ heq => by cases heq)
  | @called B op p m sys htaskB hm hsys hbusy =>
    rw [task_setTask] at htask
    split_ifs at htask with hB
    · subst hB
      cases htask
      have hold : s.sys.Keeps B f := by
        obtain ⟨name,hop,⟨k,rfl,hne,-⟩ | hrem⟩ := file_cases hfile
        · refine keeps_asked h hrun htaskB hne hop ?_
          simp only [Fs.sparesFiles, htaskB, hfile] at hc
          intro hnone
          simp [hnone] at hc
        · exact hsp.kept B _ f hrun htaskB (file_of_removes hrem hop false)
      refine hkeep hold (fun _ _ _ heq => by cases heq) ?_
      rintro op' k - htask'
      rw [htaskB] at htask'
      cases htask'
      cases hm
      rcases remove_not_busy hsys with heq | ⟨-,hidle⟩
      · rw [sys_setTask, heq, client_setClient, if_pos rfl] at hrun'
        cases hrun'
      · exact hidle hbusy
    · refine hkeep (hsp.kept A j f hrun htask hfile) (fun _ _ _ heq => by cases heq) ?_
      rintro op' k heq
      cases heq
      exact absurd rfl hB
  | @answered B op p p' m sys htaskB hm hsys hidle hp =>
    rw [task_setTask] at htask
    split_ifs at htask with hB
    · subst hB
      cases htask
      obtain ⟨hab,hcalls⟩ := not_busy_iff.mp hidle
      obtain ⟨hpath,ha | hin⟩ := own_call h htaskB hm hsys hab
      · obtain ⟨hold,hnot⟩ := answered_file hpath ha hp hfile
        obtain ⟨name,hop,⟨k,rfl,-⟩ | hrem⟩ := file_cases hold
        · cases hm
          have hnil := (standing_ready (h.standing B) hrun htaskB).2.1
          exact absurd (acquire_busy h hnil hsys) hidle
        · refine hkeep (hsp.kept B _ f hrun htaskB (file_of_removes hrem hop false))
            (fun _ _ _ heq => by cases heq) ?_
          rintro op' k - htask'
          rw [htaskB] at htask'
          cases htask'
          exact hnot k rfl
      · exact absurd hcalls (inCall_busy hin)
    · refine hkeep (hsp.kept A j f hrun htask hfile) (fun _ _ _ heq => by cases heq) ?_
      rintro op' k heq
      cases heq
      exact absurd rfl hB
  | @inner e he hsys hbusy =>
    refine hkeep (hsp.kept A j f hrun htask hfile) ?_ (fun _ _ heq => by cases heq)
    rintro B T rest heq hcalls
    cases heq
    have hj : s.task A = some j := htask
    simp [Fs.sparesFiles, hcalls, hj, hfile] at hc
  | @returned B m op p p' sys he htaskB hsys hidle hp =>
    rw [task_setTask] at htask
    split_ifs at htask with hB
    · subst hB
      cases htask
      obtain ⟨hab,hcalls⟩ := not_busy_iff.mp hidle
      obtain ⟨hpath,ha | hin⟩ := own_inner h he htaskB hsys hab
      · obtain ⟨hold,-⟩ := answered_file hpath ha hp hfile
        exact hkeep (hsp.kept B _ f hrun htaskB hold) (fun _ _ _ heq => by cases heq)
          (fun _ _ heq => by cases heq)
      · exact absurd hcalls (inCall_busy hin)
    · exact hkeep (hsp.kept A j f hrun htask hfile) (fun _ _ _ heq => by cases heq)
        (fun _ _ heq => by cases heq)
  | @finish B op r hret =>
    rw [task_erase] at htask
    split_ifs at htask
    exact hkeep (hsp.kept A j f hrun htask hfile) (fun _ _ _ heq => by cases heq)
      (fun _ _ heq => by cases heq)

/-- A lock whose extent is lost when it is given back is free, between two calls. -/
theorem doomed_ready (h : s.Inv κ) (hrun : (s.sys.client A).aborted = false)
    (htask : s.task A = some ⟨op, p, false⟩) (hd : s.sys.DoomedBy l A) :
    ((s.sys.client A).lock l).state = .free := by
  obtain ⟨-,-,-,hfree | ⟨T,hT⟩⟩ := hd
  · exact hfree
  · by_cases h0 : T = 0
    · subst h0
      rw [(standing_ready (h.standing A) hrun htask).2.1] at hT
      cases hT
    · rw [h.single A T h0] at hT
      cases hT

theorem sparing_asked {k : Status → Prog} (h : s.Inv κ) (hsp : s.Sparing)
    (hc : s.sparesFiles e = true) (hs : s.Steps e s')
    (hrun' : (s'.sys.client A).aborted = false)
    (htask : s'.task A = some ⟨op, .acquire l k, true⟩) : ¬ s'.sys.DoomedBy l A := by
  intro hd'
  have hrun := running_back hs A hrun'
  have hdoomed := fs_doomed h hs hd'
  -- as long as the task is the same
  have hsame : s.task A = some ⟨op, .acquire l k, true⟩ → False := by
    intro hold
    rcases hdoomed with hd | ⟨op',k',rfl,hother,-⟩ | ⟨op',k',rfl,hother,-⟩
    · exact hsp.asked A op l k hrun hold hd
    · rw [hold] at hother
      cases hother
    · rw [hold] at hother
      cases hother
  cases hs with
  | start | draw | answered | returned =>
    rw [task_setTask] at htask
    split_ifs at htask
    · exact absurd (congrArg Task.called (Option.some.inj htask)) (by simp)
    · exact hsame htask
  | @called B op p m sys htaskB hm hsys hbusy =>
    rw [task_setTask] at htask
    split_ifs at htask with hB
    · subst hB
      cases htask
      rcases hdoomed with hd | ⟨op',k',-,hother,-⟩ | ⟨op',k',-,hother,-⟩
      · have hfree := doomed_ready h hrun htaskB hd
        obtain ⟨-,hcopy,hx,-⟩ := hd
        obtain ⟨x,hx⟩ := Option.ne_none_iff_exists'.mp hx
        simp [Fs.sparesFiles, htaskB, hcopy, hfree, hx] at hc
      · rw [htaskB] at hother
        cases hother
      · rw [htaskB] at hother
        cases hother
    · exact hsame htask
  | inner => exact hsame htask
  | finish =>
    rw [task_erase] at htask
    split_ifs at htask
    exact hsame htask

theorem sparing_step (h : s.Inv κ) (hsp : s.Sparing) (hc : s.sparesFiles e = true)
    (hs : s.Steps e s') : s'.Sparing :=
  ⟨fun _ _ _ hrun htask hfile => sparing_kept h hsp hc hs hrun htask hfile,
    fun _ _ _ _ hrun htask => sparing_asked h hsp hc hs hrun htask⟩

/-- The client has the lock and no copy, and gives the lock back without one if the server has the
extent. -/
structure Sys.Condemned (s : Sys) (A l : ℕ) : Prop where
  owner : (s.lockTable.info l).owner = some A
  copy : (s.client A).localExtent[l]? = none
  doomed : s.table[l]? ≠ none → s.DoomedBy l A

/-- The removal at the end of `unlink` finds a copy. -/
theorem removal_done {k : Except ExtErr Unit → Prog} (h : s.Inv κ) (hsp : s.Sparing)
    (htask : s.task A = some ⟨op, .remove f k, false⟩) (hs : s.Steps (.call A) s') :
    (s'.sys.client A).aborted = false ∧ s'.task A = some ⟨op, .ret (.ok .done), false⟩ ∧
      s'.sys.Condemned A f := by
  -- the call of the operation, answered or not
  have hcall : ∀ {sys}, s.sys.step (.client A 0 (.unlinkRemove f)) = some sys →
      op.Stands (.remove f k) (κ A) ∧ ¬ sys.busy A ∧ sys.Condemned A f := by
    intro sys hsys
    have hrun := step_running hsys
    obtain ⟨hpath,-,ha,-⟩ := standing_ready (h.standing A) hrun htask
    have hst := path_stands hpath
    have hfile : (⟨op, .remove f k, false⟩ : Task).file = some f := by
      obtain ⟨⟨name,hop⟩,-⟩ := removing_known (remove_removing hst)
      exact file_of_removes rfl hop false
    obtain ⟨hcopy,hstate⟩ := hsp.kept A _ f hrun htask hfile
    obtain ⟨hidle,htable,hlocks,hnone,hlock⟩ := remove_done hsys hcopy
    obtain ⟨e,he⟩ := Option.ne_none_iff_exists'.mp hcopy
    have howner := (copy_owner h.ordered he).1
    refine ⟨hst, hidle, by rw [hlocks]; exact howner, hnone, fun hx => ?_⟩
    refine ⟨by rw [hlocks]; exact howner, hnone, hx, Or.inl ?_⟩
    have hnot : κ A f = none := by
      generalize κ A = K at hst
      cases hst
      rfl
    rw [hlock]
    exact free_idle h.ordered (ready_roles h hrun htask hnot) hcopy
  cases hs with
  | called htask' hm hsys hbusy =>
    rw [htask] at htask'
    cases htask'
    cases hm
    exact absurd hbusy (hcall hsys).2.1
  | answered htask' hm hsys hidle hp =>
    rw [htask] at htask'
    cases htask'
    cases hm
    obtain ⟨hst,-,hgone⟩ := hcall hsys
    refine ⟨(not_busy_iff.mp hidle).1, ?_, hgone⟩
    rw [task_setTask, if_pos rfl]
    generalize κ A = K at hst
    cases hst with
    | remove hd hne hk =>
      simp only [Prog.step, Client.answer, if_true, hk] at hp
      cases hp
      rfl

/-- The client has the lock, and makes no new extent under the number. -/
def Fs.holdsOn (s : Fs) (A f : ℕ) (e : FsEvent) : Prop :=
  (s.sys.lockTable.info f).owner = some A ∧
    ∀ op buf k, e = .call A → s.task A ≠ some ⟨op, .put f buf k, false⟩

theorem content_none {sys : Sys} : sys.content l = none ↔
    sys.table[l]? = none ∧
      ∀ A, (sys.lockTable.info l).owner = some A → (sys.client A).localExtent[l]? = none := by
  unfold Sys.content
  rcases ho : (sys.lockTable.info l).owner with _ | B
  · simp only [Option.bind_none, Option.map_eq_none_iff]
    exact ⟨fun h => ⟨h, fun A hA => by cases hA⟩, And.left⟩
  · rcases hB : (sys.client B).localExtent[l]? with _ | x
    · simp only [Option.bind_some, hB, Option.map_eq_none_iff]
      refine ⟨fun h => ⟨h, ?_⟩, And.left⟩
      rintro A ⟨⟩
      exact hB
    · simp only [Option.bind_some, hB]
      refine ⟨(fun h => by cases h), fun ⟨_,h⟩ => ?_⟩
      have hnone := h B rfl
      rw [hB] at hnone
      cases hnone

/-- A step of a thread by which it comes to have a lock. -/
theorem own_held {sys sys' : Sys} {m : Move} {r : Bool} (hs : sys.Ordered)
    (hsimple : (sys.thread A 0).Simple) (hm : m ≠ .reconnect)
    (h : sys.step (.client A 0 m) = some sys') (hheld : (l, r) ∈ (sys'.thread A 0).held) :
    (sys.thread A 0).Has l ∨ ∃ pc, (sys.thread A 0).calls = [.acquire l pc] := by
  obtain rfl | ⟨-,hcl,-⟩ | ⟨c',hc',hdoes,-⟩ := client_does hs hsimple hm h
  · unfold Sys.thread at hheld
    rw [client_setClient, if_pos rfl] at hheld
    exact Or.inl (Or.inl ⟨r, hheld⟩)
  · unfold Sys.thread Sys.client at hheld
    rw [hcl] at hheld
    exact Or.inl (Or.inl ⟨r, hheld⟩)
  · unfold Sys.thread at hheld
    rw [hc', if_pos rfl] at hheld
    generalize hy : c'.localAt sys'.table 0 = y at hdoes
    have hth : c'.thread 0 = y.th := by rw [← hy]; rfl
    rw [hth] at hheld
    have hold : ∀ {r}, (l, r) ∈ (sys.thread A 0).held → (sys.thread A 0).Has l :=
      fun hr => Or.inl ⟨_, hr⟩
    cases hdoes with
    | callAcquire | acquiring | flushed | released | put | removed => exact Or.inl (hold hheld)
    | @acquired _ i pc hc =>
      rcases List.mem_cons.mp hheld with heq | hr
      · cases heq
        exact Or.inr ⟨pc, hc⟩
      · exact Or.inl (hold hr)
    | callRelease hc hsec | fetching hc hu hsec => exact Or.inl (hold (mem_drop.mp hheld).1)
    | hit hc hu hsec | miss hc hu hsec =>
      obtain ⟨r',hr⟩ := (mem_read hsec l).mp ⟨r, hheld⟩
      exact Or.inl (hold hr)
    | @loaded i op read buf f hc ht =>
      rcases List.mem_cons.mp hheld with heq | hr
      · cases heq
        left
        right
        refine ⟨read, buf, op, ?_⟩
        have hcalls : (sys.thread A 0).calls = [.load l read buf op] := hc
        rw [hcalls]
        exact List.mem_singleton.mpr rfl
      · exact Or.inl (hold hr)

/-- Nobody but its thread makes a client hold a lock, and only with an `acquire`. -/
theorem held_back (h : s.Inv κ) (hs : s.Steps e s') (hinv' : s'.Inv κ') {T : ℕ} {r : Bool}
    (hheld : (l, r) ∈ (s'.sys.thread A T).held) : (s.sys.thread A 0).Has l ∨
    ∃ op k, (s.sys.client A).aborted = false ∧ s.task A = some ⟨op, .acquire l k, true⟩ := by
  have hT : T = 0 := by
    by_contra hT
    rw [hinv'.single A T hT] at hheld
    cases hheld
  subst hT
  have hsame : s'.sys.thread A 0 = s.sys.thread A 0 → (s.sys.thread A 0).Has l := by
    intro heq
    rw [heq] at hheld
    exact Or.inl ⟨r, hheld⟩
  rcases fs_sys hs with ⟨heq,-⟩ | ⟨B,op,p,m,rfl,htask,hm,hsys⟩ | ⟨e',rfl,he',hsys⟩
  · exact Or.inl (hsame (by rw [heq]))
  · by_cases hA : A = B
    · subst hA
      have hnil := (standing_ready (h.standing A) (step_running hsys) htask).2.1
      rcases own_held h.ordered (Or.inl hnil) (move_ne hm).1 hsys hheld with h1 | ⟨pc,hc⟩
      · exact Or.inl h1
      · rw [hnil] at hc
        cases hc
    · left
      apply hsame
      unfold Sys.thread
      rw [client_others hsys hA]
  · by_cases hc : ∃ B T m, e' = .client B T m
    · obtain ⟨B,T,m,rfl⟩ := hc
      obtain ⟨rfl,hm⟩ := isInner_client he'
      by_cases hA : A = B
      · subst hA
        have hrun := step_running hsys
        have hne : m ≠ .reconnect := by
          rintro rfl
          cases he'
        rcases own_held h.ordered (standing_simple (h.standing A) hrun) hne hsys hheld
          with h1 | ⟨pc,hcalls⟩
        · exact Or.inl h1
        · right
          cases h.standing A with
          | gone hab =>
            rw [hrun] at hab
            cases hab
          | idle _ hth =>
            rw [hth] at hcalls
            cases hcalls
          | ready _ _ hnil =>
            rw [hnil] at hcalls
            cases hcalls
          | @busy op p htask hpath hin =>
            have hcalls' : ((s.sys.client A).localAt s.sys.table 0).th.calls =
              [.acquire l pc] := hcalls
            cases hin with
            | @acquiring l' k pc' hp hc' =>
              rw [hc'] at hcalls'
              cases hcalls'
              subst hp
              exact ⟨op, k, hrun, htask⟩
            | releasing _ hc' | loading _ hc' =>
              rw [hc'] at hcalls'
              cases hcalls'
      · left
        apply hsame
        unfold Sys.thread
        rw [client_others hsys hA]
    · left
      have hmsg := message_step he' (fun B T m heq => hc ⟨B, T, m, heq⟩) hsys
      have hheld' := (served_same (hmsg.thread A 0)).1
      rw [hheld'] at hheld
      exact Or.inl ⟨r, hheld⟩

/-- What is left of the file goes when the client gives its lock back. -/
theorem condemned_step (h : s.Inv κ) (hsp : s.Sparing) (hon : s.holdsOn A f e)
    (hs : s.Steps e s') (hinv' : s'.Inv κ') (hgone : s.sys.Condemned A f) :
    s'.sys.Condemned A f ∨
      (s'.sys.lockTable.info f).owner ≠ some A ∧ s'.sys.table[f]? = none := by
  obtain ⟨howner,hcopy,hdoomed⟩ := hgone
  by_cases hx : s.sys.table[f]? = none
  · -- there is no such extent, and nobody makes one
    have hnone : s.sys.content f = none := by
      refine content_none.mpr ⟨hx, fun B hB => ?_⟩
      obtain rfl := Option.some.inj (howner.symm.trans hB)
      exact hcopy
    have hnone' : s'.sys.content f = none := by
      rcases fs_content h hs f with (hsame | ⟨-,hn⟩) | ⟨B,op,buf,k,rfl,htask,-,hidle⟩ |
        ⟨B,op,k,rfl,htask,-,hcopyB⟩
      · exact hsame.trans hnone
      · exact hn
      · -- whoever puts it has its lock
        have hrun := running_back hs B (not_busy_iff.mp hidle).1
        have hk := (put_known (path_stands (running_path h hrun (doing_eq htask)))).1
        have hhas := (known h hrun (doing_eq htask) (by simp)).1 hk
        obtain rfl := Option.some.inj (howner.symm.trans (has_owner h.ordered hhas).1)
        exact absurd htask (hon.2 op buf k rfl)
      · obtain ⟨x,hx⟩ := Option.ne_none_iff_exists'.mp hcopyB
        obtain rfl := Option.some.inj (howner.symm.trans (copy_owner h.ordered hx).1)
        exact absurd hcopy hcopyB
    obtain ⟨hx',hcopy'⟩ := content_none.mp hnone'
    by_cases howner' : (s'.sys.lockTable.info f).owner = some A
    · exact Or.inl ⟨howner', hcopy' A howner', fun hne => absurd hx' hne⟩
    · exact Or.inr ⟨howner', hx'⟩
  · have hd := hdoomed hx
    have hnext : s'.sys.DoomedBy f A ∨
        s'.sys.table[f]? = none ∧ (s'.sys.client A).localExtent[f]? = none := by
      have hsys : ∀ {e'}, (∀ B, e' ≠ .disconnect B) → s.sys.step e' = some s'.sys →
          s'.sys.DoomedBy f A ∨
            s'.sys.table[f]? = none ∧ (s'.sys.client A).localExtent[f]? = none := by
        intro e' he' hsys
        rcases doomed_sys_next h.ordered he' hsys hinv'.ordered hd with h1 | h1 | ⟨T,hT⟩
        · exact Or.inl h1
        · exact Or.inr h1
        · rcases held_back h hs hinv' hT with hhas | ⟨op,k,hrun,htask⟩
          · exact absurd hd ((has_owner h.ordered hhas).2 A)
          · exact absurd hd (hsp.asked A op f k hrun htask)
      rcases fs_sys hs with ⟨heq,-⟩ | ⟨B,op,p,m,rfl,htask,hm,hstep⟩ | ⟨e',rfl,he',hstep⟩
      · exact Or.inl (heq ▸ hd)
      · exact hsys (by simp) hstep
      · refine hsys ?_ hstep
        rintro B rfl
        cases he'
    rcases hnext with hd' | ⟨hx',hcopy'⟩
    · exact Or.inl ⟨hd'.1, hd'.2.1, fun _ => hd'⟩
    · by_cases howner' : (s'.sys.lockTable.info f).owner = some A
      · exact Or.inl ⟨howner', hcopy', fun hne => absurd hx' hne⟩
      · exact Or.inr ⟨howner', hx'⟩

end

/-- What `unlink` has to do, in a run that has come to `s`: the removal at its end finds the extent
in the cache, so that it returns `OK`; and from then on, as long as the client has the lock and
makes no new file of that number, the lock can only be given back together with the extent. -/
structure UnlinkWorks (es : List FsEvent) (s : Fs) : Prop where
  verified : ∀ A op f k s', s.task A = some ⟨op, .remove f k, false⟩ → s.step (.call A) = some s' →
    (s'.sys.client A).aborted = false ∧ s'.task A = some ⟨op, .ret (.ok .done), false⟩
  absent : ∀ fs gs A op f k r r', es = fs ++ .call A :: gs → Fs.run fs = some r →
    r.task A = some ⟨op, .remove f k, false⟩ → r.step (.call A) = some r' →
    TraceSystem.Meets Fs.step (fun t e => t.holdsOn A f e) r' gs →
    (s.sys.lockTable.info f).owner ≠ some A → s.sys.table[f]? = none

abbrev SparingRun (es : List FsEvent) : Prop :=
  TraceSystem.Meets Fs.step (fun s e => s.sparesFiles e = true) Fs.init es

theorem sparing_run {es : List FsEvent} {s : Fs} (hc : SparingRun es) (hrun : Fs.run es = some s) :
    ∃ κ, s.Inv κ ∧ s.Sparing := by
  refine moves_run (I := fun s _ => s.Sparing) ⟨fun A j f _ htask => ?_, fun A op l k _ htask => ?_⟩
    ?_ hc hrun
  · simp [Fs.init, Fs.task] at htask
  · simp [Fs.init, Fs.task] at htask
  · intro s κ e s' κ' hinv hsp hce _ _ hs
    exact sparing_step hinv hsp hce hs

/-- In such a run every `unlink` that comes to its end removes the file. -/
theorem unlink_works {es : List FsEvent} {s : Fs} (hc : SparingRun es) (hrun : Fs.run es = some s) :
    UnlinkWorks es s := by
  refine ⟨fun A op f k s' htask hstep => ?_, ?_⟩
  · obtain ⟨κ,hinv,hsp⟩ := sparing_run hc hrun
    obtain ⟨h1,h2,-⟩ := removal_done hinv hsp htask (fs_steps hstep)
    exact ⟨h1, h2⟩
  · rintro fs gs A op f k r r' rfl hr htask hstep hon howner
    obtain ⟨hcf,hcg⟩ := hc.append
    obtain ⟨κ,hinv,hsp⟩ := sparing_run hcf hr
    obtain ⟨hce,hcg⟩ := hcg r hr
    have hs := fs_steps hstep
    obtain ⟨κ',hinv',-⟩ := inv_steps hinv hs
    have hgone := (removal_done hinv hsp htask hs).2.2
    have hsp' := sparing_step hinv hsp hce hs
    have hrest : TraceSystem.run Fs.step r' gs = some s := by
      have hall := hrun
      unfold Fs.run at hall hr
      rw [TraceSystem.run_append, hr, Option.bind_some, TraceSystem.run_cons, hstep] at hall
      exact hall
    have hlast := TraceSystem.Meets.invariant
      (I := fun t => ∃ κ, t.Inv κ ∧ t.Sparing ∧ (t.sys.Condemned A f ∨
        (t.sys.lockTable.info f).owner ≠ some A ∧ t.sys.table[f]? = none))
      ?_ ⟨κ', hinv', hsp', Or.inl hgone⟩ (TraceSystem.Meets.and (hcg r' hstep) hon) hrest
    · obtain ⟨-,-,-,h1 | h1⟩ := hlast
      · exact absurd h1.owner howner
      · exact h1.2
    · rintro t e t' ⟨κt,hinvt,hspt,hgt⟩ ⟨hct,hont⟩ ht
      obtain ⟨κt',hinvt',-⟩ := inv_steps hinvt (fs_steps ht)
      refine ⟨κt', hinvt', sparing_step hinvt hspt hct (fs_steps ht), ?_⟩
      rcases hgt with h1 | ⟨h1,-⟩
      · exact condemned_step hinvt hspt hont (fs_steps ht) hinvt' h1
      · exact absurd hont.1 h1

/-- The root directory, and a file in it that the first client has made. -/
def oneFile : List FsEvent := mounts 0 ++ creates 0 [97] 5

/-- The file is looked at by a client that has to get its lock from another one. -/
def looks (A f : ℕ) : List FsEvent :=
  [.start A (.getfile f)] ++ wrests A f ++ [.call A, .inner (.client A 0 .loadAttr)] ++ frees A ++
    [.finish A]

/-- The second client unlinks the file. -/
def unlinksElsewhere : List FsEvent :=
  oneFile ++ [.start 1 (.unlink 1 [97])] ++ wrests 1 1 ++
    [.call 1, .inner (.client 1 0 .loadAttr)] ++
    wrests 1 0x80000005 ++ [.call 1] ++ frees 1 ++ frees 1

/-- The first client, which has looked at the file last, unlinks it, and the second one wants its
lock. -/
def unlinksHere : List FsEvent :=
  oneFile ++ looks 1 0x80000005 ++ looks 0 0x80000005 ++ [.start 0 (.unlink 1 [97])] ++ retakes 0 ++
    [.call 0] ++ retakes 0 ++ [.call 0] ++ frees 0 ++ frees 0 ++ [.call 0] ++
    [.start 1 (.getfile 0x80000005)] ++ (wrests 1 0x80000005).take 6

theorem unlink_works_here : ∃ s, Fs.run unlinksHere = some s ∧ UnlinkWorks unlinksHere s ∧
    s.sys.table[0x80000005]? = none := by
  obtain ⟨s,hrun,hx⟩ := TraceSystem.reaches_of_any Fs.step
    (fun s => s.sys.table[0x80000005]? = none) Fs.init unlinksHere (by decide +kernel)
  exact ⟨s, hrun, unlink_works (by decide +kernel) hrun, hx⟩

/-- The operation is to remove an extent. -/
def Prog.removing : Prog → Bool
  | .remove _ _ => true
  | _ => false

/-- The file exists, and its removal fails. -/
theorem unlink_fails_elsewhere :
    (∃ s, Fs.run oneFile = some s ∧ s.entry 1 [97] = some 0x80000005 ∧ isfile 0x80000005 = true) ∧
    ∃ s, Fs.run unlinksElsewhere = some s ∧ ¬ UnlinkWorks unlinksElsewhere s := by
  refine ⟨TraceSystem.reaches_of_any Fs.step
    (fun s => s.entry 1 [97] = some 0x80000005 ∧ isfile 0x80000005 = true) Fs.init oneFile
    (by decide +kernel), ?_⟩
  obtain ⟨s,hrun,hremove,hab⟩ := TraceSystem.reaches_of_any Fs.step
    (fun s => (s.task 1).any (fun t => t.prog.removing && !t.called) = true ∧
      (s.step (.call 1)).any (fun s' => (s'.sys.client 1).aborted) = true)
    Fs.init unlinksElsewhere (by decide +kernel)
  refine ⟨s, hrun, fun h => ?_⟩
  obtain ⟨s',hs',hab⟩ := (Option.any_eq_true _ _).mp hab
  obtain ⟨⟨op,p,called⟩,htask,hp⟩ := (Option.any_eq_true _ _).mp hremove
  obtain ⟨hp,hcalled⟩ := Bool.and_eq_true_iff.mp hp
  obtain rfl : called = false := by simpa using hcalled
  cases p with
  | remove f k =>
    rw [(h.verified 1 op f k s' htask hs').1] at hab
    cases hab
  | _ => cases hp

end DisconnectedYfs.YFS
