import DisconnectedYfs.YFSFileRuns

/-! What the extents hold, over the steps of the file system: an extent changes when an operation
puts it, and is lost when an operation has given its lock back without a copy of it. -/
namespace DisconnectedYfs.YFS
open Std

/-- No thread of the owner uses the lock, and the owner has no copy of an extent that exists: to
give the lock back will erase it. -/
def LockView.Doomed (v : LockView) (A : ℕ) : Prop :=
  v.owner = some A ∧ (v.party A).copy = none ∧ v.extent ≠ none ∧
    ((v.party A).agent = none ∨ ∃ T, (v.party A).agent = some (.thread T, .leaving))

section
variable {v v' : LockView} {k : LockEvent} {C : ℕ}

theorem doomed_partyStep {k : Kind} {p p' : Party} {x x' : Option FInfo}
    (h : PartyStep k p x p' x') (ho : p.Owns) (hk : k ≠ .resolve)
    (ha : p'.agent = none ∨ ∃ T, p'.agent = some (.thread T, .leaving)) (hc : p'.copy = none) :
    x' = x ∧ (k = .unlinked ∨ k = .rejoin ∨ (∃ read, k = .quit read) ∧ p.copy = none ∨
      (p.agent = none ∨ ∃ T, p.agent = some (.thread T, .leaving)) ∧ p.copy = none) := by
  cases h
  case take hr | grant hr | grantStale hr _ | grantRevoked hr =>
    obtain ⟨rfl,rfl⟩ | ⟨rfl,rfl⟩ := hr
    · simp at ha
    · exact ⟨rfl, Or.inr (Or.inl rfl)⟩
  all_goals simp_all [Party.Owns]

/-- How that comes about: the client removes its copy, or begins to release without one. -/
theorem doomed_step (hg : Good v) (hk : k.Connected) (h : LockStep k v v') (hd : v'.Doomed C) :
    v.Doomed C ∨ k = .party C .unlinked ∨ k = .party C .rejoin ∨
      (∃ read, k = .party C (.quit read)) ∧ (v.party C).copy = none ∧ v.extent ≠ none := by
  obtain ⟨howner,hcopy,hx,hagent⟩ := hd
  obtain ⟨howner',⟨j,rfl,hp⟩ | ⟨hagent',hcopy',hx'⟩⟩ := resting_step hg h howner hagent
  · have hres : j ≠ .resolve := by
      rintro rfl
      exact hk.2 C rfl
    obtain ⟨hxx,h | h | ⟨⟨read,h⟩,h'⟩ | ⟨h,h'⟩⟩ :=
      doomed_partyStep hp ((hg.owner C).mp howner') hres hagent hcopy
    · exact Or.inr (Or.inl (by rw [h]))
    · exact Or.inr (Or.inr (Or.inl (by rw [h])))
    · exact Or.inr (Or.inr (Or.inr ⟨⟨read, by rw [h]⟩, h', hxx ▸ hx⟩))
    · exact Or.inl ⟨howner', h', hxx ▸ hx, h⟩
  · exact Or.inl ⟨howner', hcopy'.trans hcopy, hx' ▸ hx, hagent' ▸ hagent⟩

end

/-- The same, read off the system. -/
def Sys.DoomedBy (s : Sys) (l A : ℕ) : Prop :=
  (s.lockTable.info l).owner = some A ∧ (s.client A).localExtent[l]? = none ∧ s.table[l]? ≠ none ∧
    (((s.client A).lock l).state = .free ∨ ∃ T, .release l .start ∈ (s.thread A T).calls)

section
variable {s s' : Sys} {A l : ℕ} {g : ℕ → Option (Agent × Role)}

theorem leaving_call {f : Call} (h : .leaving ∈ f.roles l) : f = .release l .start := by
  generalize hr : Role.leaving = r at h
  cases call_plays h with
  | acquire hpc =>
    subst hr
    simpa using acquire_role hpc
  | release pc =>
    cases pc <;> cases hr
    rfl
  | resolve hstage =>
    subst hr
    simp at hstage
  | hold | load => cases hr

theorem asking_call {f : Call} (h : .asking ∈ f.roles l) : ∃ pc, f = .acquire l pc := by
  generalize hr : Role.asking = r at h
  cases call_plays h with
  | @acquire pc => exact ⟨pc, rfl⟩
  | release pc => cases pc <;> cases hr
  | resolve hstage =>
    subst hr
    simp at hstage
  | hold | load => cases hr

theorem doomed_iff (ht : s.Tracks l g) (ho : (s.view l g).Ordered) :
    (s.view l g).Doomed A ↔ s.DoomedBy l A := by
  have hstate : ((s.view l g).party A).state = ((s.client A).lock l).state := rfl
  have hagent : ((s.view l g).party A).agent = g A := rfl
  have hfits := ho.good.fits A
  constructor
  · rintro ⟨howner,hcopy,hx,ha⟩
    refine ⟨howner, hcopy, hx, ?_⟩
    have howns := (ho.good.owner A).mp howner
    rcases ha with ha | ⟨T,ha⟩
    · left
      unfold Party.Owns at howns
      rw [ha] at howns
      exact howns.2.1
    · right
      have hr : Role.leaving ∈ (s.thread A T).roles l := by
        rw [show (s.thread A T).roles l = slot (g A) T from ht.agents A T, ← hagent, ha]
        simp [slot]
      rcases List.mem_append.mp hr with hr | hr
      · obtain ⟨f,hf,hrole⟩ := List.mem_flatMap.mp hr
        rw [leaving_call hrole] at hf
        exact ⟨T, hf⟩
      · simp [holdRoles] at hr
  · rintro ⟨howner,hcopy,hx,ha⟩
    refine ⟨howner, hcopy, hx, ?_⟩
    rcases ha with hfree | ⟨T,hT⟩
    · left
      rw [← hstate] at hfree
      unfold Party.Fits at hfits
      split at hfits
      · assumption
      · rw [hfree] at hfits
        simp at hfits
      · split at hfits <;> simp [hfree] at hfits
    · right
      have hr : Role.leaving ∈ (s.thread A T).roles l := by
        apply List.mem_append_left
        exact List.mem_flatMap.mpr ⟨_, hT, by simp [ReleasePc.role]⟩
      exact ⟨T, (agents_single (ht.agents A) rfl hr).1⟩

variable {e : Event}

/-- What a step does to an extent. -/
theorem content_sys (hs : s.Ordered) (he : ∀ A, e ≠ .disconnect A) (h : s.step e = some s')
    (l : ℕ) : s'.content l = s.content l ∨
    (∃ A T buf, e = .client A T (.put l buf) ∧ s'.content l = some buf) ∨
    (∃ A T, e = .client A T (.unlinkRemove l)) ∨
    (∃ A, s.DoomedBy l A) ∧ s'.content l = none := by
  obtain ⟨g,ht,ho⟩ := hs.lock l
  obtain ⟨g',-,-,heq | ⟨k,hk,hc,hls⟩⟩ := hs.progress he h ht ho
  · left
    rw [← view_content s' l g', heq, view_content]
  · rcases content_step ho.good ho.online ho.bound hc hls with
      hsame | ⟨A,read,buf,rfl,hbuf⟩ | ⟨A,rfl⟩ | ⟨⟨A,howner,hcopy,ha⟩,hnone⟩
    · exact Or.inl hsame
    · obtain ⟨T,m,rfl,rfl,-⟩ := hk
      exact Or.inr (Or.inl ⟨A, T, buf, rfl, hbuf⟩)
    · obtain ⟨T,m,rfl,rfl⟩ := hk
      exact Or.inr (Or.inr (Or.inl ⟨A, T, rfl⟩))
    · by_cases hx : (s.view l g).extent = none
      · left
        have hcontent : (s.view l g).content = none := by
          rw [content_of_no_copy, hx]
          · rfl
          · intro B hB
            obtain rfl := Option.some.inj (howner.symm.trans hB)
            exact hcopy
        exact hnone.trans hcontent.symm
      · exact Or.inr (Or.inr (Or.inr ⟨⟨A, (doomed_iff ht ho).mp ⟨howner, hcopy, hx, ha⟩⟩, hnone⟩))

/-- A lock comes to a client whose thread is asking for it. -/
theorem owner_sys (hs : s.Ordered) (he : ∀ A, e ≠ .disconnect A) (h : s.step e = some s')
    (ho' : (s'.lockTable.info l).owner = some A) : (s.lockTable.info l).owner = some A ∨
    ∃ T pc, .acquire l pc ∈ (s.thread A T).calls := by
  obtain ⟨g,ht,ho⟩ := hs.lock l
  obtain ⟨g',-,-,heq | ⟨k,-,hc,hls⟩⟩ := hs.progress he h ht ho
  · left
    have howner := congrArg LockView.owner heq
    exact howner.symm.trans ho'
  · have howner : (s'.view l g').owner = some A := ho'
    have hold : (s.view l g).owner = (s.lockTable.info l).owner := rfl
    generalize s'.view l g' = v' at hls howner
    cases hls with
    | @grant _ B T ha hfree =>
      obtain rfl : B = A := Option.some.inj howner
      right
      have hr : Role.asking ∈ (s.thread B T).roles l := by
        have hagent : ((s.view l g).party B).agent = g B := rfl
        rw [show (s.thread B T).roles l = slot (g B) T from ht.agents B T, ← hagent, ha]
        simp [slot]
      rcases List.mem_append.mp hr with hr | hr
      · obtain ⟨f,hf,hrole⟩ := List.mem_flatMap.mp hr
        obtain ⟨pc,rfl⟩ := asking_call hrole
        exact ⟨T, pc, hf⟩
      · simp [holdRoles] at hr
    | release | handlerRelease => cases howner
    | disconnect => exact absurd rfl (hc.1 _)
    | disconnectOther => exact absurd rfl (hc.1 _)
    | party | wait | firstWait | revokeBusy | revokeFree | revoked | retry =>
      exact Or.inl (hold.symm.trans howner)

theorem doomed_sys (hs : s.Ordered) (he : ∀ A, e ≠ .disconnect A) (h : s.step e = some s')
    (hd : s'.DoomedBy l A) : s.DoomedBy l A ∨ (∃ T, e = .client A T (.unlinkRemove l)) ∨
    (∃ T m, e = .client A T m ∧ (s.thread A T).calls.any Call.reconnects = true) ∨
    ∃ T unlink read, e = .client A T (.callRelease l unlink) ∧
      (s.thread A T).section? l = some read ∧ (s.client A).localExtent[l]? = none ∧
      s.table[l]? ≠ none := by
  obtain ⟨g,ht,ho⟩ := hs.lock l
  obtain ⟨g',ht',ho',hprog⟩ := hs.progress he h ht ho
  replace hd := (doomed_iff ht' ho').mpr hd
  obtain heq | ⟨k,hk,hc,hls⟩ := hprog
  · rw [heq] at hd
    exact Or.inl ((doomed_iff ht ho).mp hd)
  · rcases doomed_step ho.good hc hls hd with hd | rfl | rfl | ⟨⟨read,rfl⟩,hcopy,hx⟩
    · exact Or.inl ((doomed_iff ht ho).mp hd)
    · obtain ⟨T,m,rfl,rfl⟩ := hk
      exact Or.inr (Or.inl ⟨T, rfl⟩)
    · obtain ⟨T,m,rfl,hrec⟩ := hk
      exact Or.inr (Or.inr (Or.inl ⟨T, m, rfl, hrec⟩))
    · obtain ⟨T,m,rfl,⟨unlink,rfl,hsec⟩ | ⟨n,stage,hmem⟩⟩ := hk
      · exact Or.inr (Or.inr (Or.inr ⟨T, unlink, read, rfl, hsec, hcopy, hx⟩))
      · exact absurd hmem (fun hmem => hs.no_resolve hmem)

end

/-- The extent stays as it is, or one that nobody has a copy of is erased. -/
def Fs.Leaves (s s' : Fs) (l : ℕ) : Prop :=
  s'.sys.content l = s.sys.content l ∨
    (∃ A, s.sys.DoomedBy l A) ∧ s'.sys.content l = none

/-- A step of the file system, with what it does to the extents. -/
inductive Fs.Moves (s : Fs) (κ : ℕ → Knowledge) (s' : Fs) (κ' : ℕ → Knowledge) : FsEvent → Prop
  | start {A op} (hs : s.doing A = none)
      (hs' : s'.doing = Function.update s.doing A (some (op, op.prog)))
      (hκ : κ' = Function.update κ A (fun _ => none)) (hsys : s'.sys = s.sys) :
      Moves s κ s' κ' (.start A op)
  | act {A op p p' a K' e} (he : e.actor = some A) (hrun : (s.sys.client A).aborted = false)
      (hs : s.doing A = some (op, p)) (hpath : Path op p (κ A)) (hp : p.step a = some p')
      (hl : Learns (κ A) a K') (hs' : s'.doing = Function.update s.doing A (some (op, p')))
      (hκ : κ' = Function.update κ A K') (hrun' : (s'.sys.client A).aborted = false)
      (hagree : ((s'.sys.client A).localAt s'.sys.table 0).Agrees K')
      (hcontent : ∀ l, s.Leaves s' l ∨
        (∃ buf, a = .put l buf (.ok ()) ∧ s'.sys.content l = some buf) ∨
        a = .remove l (.ok ()) ∧ (s.sys.client A).localExtent[l]? ≠ none)
      (hdoomed : ∀ l B, s'.sys.DoomedBy l B → s.sys.DoomedBy l B ∨
        B = A ∧ (a = .remove l (.ok ()) ∨ a = .release l ∧ κ A l = some .unread)) :
      Moves s κ s' κ' e
  | quiet {e} (hs' : s'.doing = s.doing) (hκ : κ' = κ) (hcontent : ∀ l, s.Leaves s' l)
      (hdoomed : ∀ l B, s'.sys.DoomedBy l B → s.sys.DoomedBy l B ∨
        (s.sys.client B).aborted = false ∧ ∃ op k, s.doing B = some (op, .release l k) ∧
          Path op (.release l k) (κ B) ∧ κ B l = some .unread) :
      Moves s κ s' κ' e
  | finish {A op r} (hs : s.doing A = some (op, .ret r))
      (hs' : s'.doing = Function.update s.doing A none) (hκ : κ' = κ) (hsys : s'.sys = s.sys) :
      Moves s κ s' κ' (.finish A)

section
variable {s s' : Fs} {κ : ℕ → Knowledge} {e : FsEvent} {A : ℕ}

/-- The step of the clients and servers in a step of the file system. -/
theorem fs_sys (h : s.Steps e s') :
    (s'.sys = s.sys ∧ ((∃ A op, e = .start A op) ∨ (∃ A a b, e = .draw A a b) ∨
      ∃ A, e = .finish A)) ∨
    (∃ A op p m, e = .call A ∧ s.task A = some ⟨op, p, false⟩ ∧ p.move = some m ∧
      s.sys.step (.client A 0 m) = some s'.sys) ∨
    ∃ e', e = .inner e' ∧ e'.isInner = true ∧ s.sys.step e' = some s'.sys := by
  cases h with
  | start => exact Or.inl ⟨rfl, Or.inl ⟨_, _, rfl⟩⟩
  | draw => exact Or.inl ⟨rfl, Or.inr (Or.inl ⟨_, _, _, rfl⟩)⟩
  | called htask hm hsys => exact Or.inr (Or.inl ⟨_, _, _, _, rfl, htask, hm, hsys⟩)
  | answered htask hm hsys => exact Or.inr (Or.inl ⟨_, _, _, _, rfl, htask, hm, hsys⟩)
  | inner he hsys => exact Or.inr (Or.inr ⟨_, rfl, he, hsys⟩)
  | returned he _ hsys => exact Or.inr (Or.inr ⟨_, rfl, he, hsys⟩)
  | finish => exact Or.inl ⟨rfl, Or.inr (Or.inr ⟨_, rfl⟩)⟩

theorem isInner_client {A T : ℕ} {m : Move} (h : (Event.client A T m).isInner = true) :
    T = 0 ∧ ((∃ a b, m = .turn a b) ∨ m = .wake ∨ m = .loadAttr) := by
  cases m <;> first | cases h | (simp [Event.isInner] at h; simp [h])

theorem put_move {p : Prog} {l : ℕ} {buf : Str} (h : p.move = some (.put l buf)) :
    ∃ k, p = .put l buf k := by
  cases p <;> cases h
  exact ⟨_, rfl⟩

theorem remove_move {p : Prog} {l : ℕ} (h : p.move = some (.unlinkRemove l)) :
    ∃ k, p = .remove l k := by
  cases p <;> cases h
  exact ⟨_, rfl⟩

theorem release_move {p : Prog} {l : ℕ} {u : Bool} (h : p.move = some (.callRelease l u)) :
    ∃ k, p = .release l k := by
  cases p <;> cases h
  exact ⟨_, rfl⟩

theorem simple_reconnects {th : Thread} (h : th.Simple) : th.calls.any Call.reconnects = false := by
  rcases h with hc | ⟨l,pc,hc⟩ | ⟨l,pc,hc⟩ | ⟨l,read,buf,op,hc⟩ <;> simp [hc, Call.reconnects]

theorem put_not_busy {sys sys' : Sys} {l : ℕ} {buf : Str}
    (h : sys.step (.client A 0 (.put l buf)) = some sys') : ¬ sys'.busy A := by
  simp only [Sys.step] at h
  split_ifs at h with hab
  simp only [Bool.or_eq_true, not_or, Bool.not_eq_true] at hab
  simp only [Client.move] at h
  rcases hsec : ((sys.client A).thread 0).section? l with _ | read
  · simp [hsec] at h
  · simp only [hsec] at h
    by_cases hidle : (((sys.client A).thread 0).idle && (sys.client A).ecMutex = none) = true
    swap
    · simp [hidle] at h
    rw [if_pos hidle] at h
    simp only [Thread.idle, Bool.and_eq_true, decide_eq_true_eq] at hidle
    cases h
    have hc : (sys.setClient A ((sys.client A).setCache ((sys.client A).localExtent.put l buf
        sys.now))).client A = (sys.client A).setCache _ :=
          (client_setClient _ _ _ _).trans (if_pos rfl)
    rw [not_busy_iff]
    exact ⟨(congrArg Client.aborted hc).trans hab.1,
      (congrArg (fun c => (Client.thread c 0).calls) hc).trans hidle.1.1⟩

/-- The removal of a copy. -/
theorem remove_done {sys sys' : Sys} {l : ℕ}
    (h : sys.step (.client A 0 (.unlinkRemove l)) = some sys')
    (hcopy : (sys.client A).localExtent[l]? ≠ none) :
    ¬ sys'.busy A ∧ sys'.table = sys.table ∧ sys'.lockTable = sys.lockTable ∧
      (sys'.client A).localExtent[l]? = none ∧ (sys'.client A).lock l = (sys.client A).lock l := by
  obtain ⟨e,he⟩ := Option.ne_none_iff_exists'.mp hcopy
  simp only [Sys.step, Client.move] at h
  split_ifs at h with hab hidle
  simp only [Bool.or_eq_true, not_or, Bool.not_eq_true] at hab
  simp only [Cache.remove, he] at h
  cases h
  have hc := (client_setClient sys A A (((sys.client A).setCache
    ((sys.client A).localExtent.erase l)).setThread 0
      ⟨[], ((sys.client A).thread 0).held, none⟩)).trans (if_pos rfl)
  refine ⟨?_, rfl, rfl, ?_, (congrArg (fun c => Client.lock c l) hc).trans rfl⟩
  · rw [not_busy_iff]
    refine ⟨(congrArg Client.aborted hc).trans hab.1,
      (congrArg (fun c => (Client.thread c 0).calls) hc).trans ?_⟩
    rw [thread_setThread, if_pos rfl]
  · exact (congrArg (fun c => (Client.localExtent c)[l]?) hc).trans (by simp)

/-- `unlink` removes its copy, or its process ends. -/
theorem remove_not_busy {sys sys' : Sys} {l : ℕ}
    (h : sys.step (.client A 0 (.unlinkRemove l)) = some sys') :
    sys' = sys.setClient A { sys.client A with aborted := true } ∨
      (sys.client A).localExtent[l]? ≠ none ∧ ¬ sys'.busy A := by
  by_cases hcopy : (sys.client A).localExtent[l]? = none
  · left
    simp only [Sys.step, Client.move] at h
    split_ifs at h
    simp only [Cache.remove, hcopy] at h
    cases h
    rfl
  · exact Or.inr ⟨hcopy, (remove_done h hcopy).1⟩

theorem same_abort (sys : Sys) (A l : ℕ) :
    (sys.setClient A { sys.client A with aborted := true }).content l = sys.content l ∧
      ∀ B, (sys.setClient A { sys.client A with aborted := true }).DoomedBy l B →
      sys.DoomedBy l B := by
  have hc : ∀ B, ((sys.setClient A { sys.client A with aborted := true }).client B).localExtent =
      (sys.client B).localExtent := by
    intro B
    rw [client_setClient]
    split_ifs with hB
    · rw [hB]
    · rfl
  constructor
  · simp only [Sys.content, hc]
    rfl
  · rintro B ⟨howner,hcopy,hx,hb⟩
    refine ⟨howner, by rw [← hc]; exact hcopy, hx, ?_⟩
    rw [client_setClient] at hb
    unfold Sys.thread at hb
    rw [client_setClient] at hb
    split_ifs at hb with hB
    · subst hB
      exact hb
    · exact hb

theorem section_known {l : ℕ} {read : Bool} {op : Op} {p : Prog} (h : s.Inv κ)
    (hrun : (s.sys.client A).aborted = false) (htask : s.task A = some ⟨op, p, false⟩)
    (hsec : (s.sys.thread A 0).section? l = some read)
    (hcopy : (s.sys.client A).localExtent[l]? = none) (hx : s.sys.table[l]? ≠ none) :
    κ A l = some .unread := by
  obtain ⟨-,-,ha,-⟩ := standing_ready (h.standing A) hrun htask
  rcases ha.cases (ha.holds hsec) with hk | ⟨-,-,hn⟩ | ⟨e,-,he⟩
  · exact hk
  · exact absurd hn hx
  · have : (s.sys.client A).localExtent[l]? = some e := he
    rw [hcopy] at this
    cases this

/-- What a step does to the extents, by the call that does it. -/
theorem fs_content (h : s.Inv κ) (hs : s.Steps e s') (l : ℕ) : s.Leaves s' l ∨
    (∃ A op buf k, e = .call A ∧ s.task A = some ⟨op, .put l buf k, false⟩ ∧
      s'.sys.content l = some buf ∧ ¬ s'.sys.busy A) ∨
    ∃ A op k, e = .call A ∧ s.task A = some ⟨op, .remove l k, false⟩ ∧ ¬ s'.sys.busy A ∧
      (s.sys.client A).localExtent[l]? ≠ none := by
  have hleave : ∀ {e' : Event}, (∀ A, e' ≠ .disconnect A) → s.sys.step e' = some s'.sys →
      s.Leaves s' l ∨ (∃ A T buf, e' = .client A T (.put l buf) ∧ s'.sys.content l = some buf) ∨
      ∃ A T, e' = .client A T (.unlinkRemove l) := by
    intro e' he' hsys
    rcases content_sys h.ordered he' hsys l with h1 | h1 | h1 | h1
    · exact Or.inl (Or.inl h1)
    · exact Or.inr (Or.inl h1)
    · exact Or.inr (Or.inr h1)
    · exact Or.inl (Or.inr h1)
  rcases fs_sys hs with ⟨heq,-⟩ | ⟨A,op,p,m,rfl,htask,hm,hsys⟩ | ⟨e',rfl,he',hsys⟩
  · exact Or.inl (Or.inl (by rw [heq]))
  · rcases hleave (by simp) hsys with h1 | ⟨B,T,buf,heq,hbuf⟩ | ⟨B,T,heq⟩
    · exact Or.inl h1
    · cases heq
      obtain ⟨k,rfl⟩ := put_move hm
      exact Or.inr (Or.inl ⟨A, op, buf, k, rfl, htask, hbuf, put_not_busy hsys⟩)
    · cases heq
      obtain ⟨k,rfl⟩ := remove_move hm
      rcases remove_not_busy hsys with heq | ⟨hcopy,hidle⟩
      · refine Or.inl (Or.inl ?_)
        rw [heq]
        exact (same_abort s.sys A l).1
      · exact Or.inr (Or.inr ⟨A, op, k, rfl, htask, hidle, hcopy⟩)
  · have hdis : ∀ A, e' ≠ .disconnect A := by
      rintro A rfl
      cases he'
    rcases hleave hdis hsys with h1 | ⟨B,T,buf,rfl,-⟩ | ⟨B,T,rfl⟩
    · exact Or.inl h1
    · cases he'
    · cases he'

theorem fs_doomed {l B : ℕ} (h : s.Inv κ) (hs : s.Steps e s') (hd : s'.sys.DoomedBy l B) :
    s.sys.DoomedBy l B ∨
    (∃ op k, e = .call B ∧ s.task B = some ⟨op, .remove l k, false⟩ ∧ ¬ s'.sys.busy B) ∨
    ∃ op k, e = .call B ∧ s.task B = some ⟨op, .release l k, false⟩ ∧
      (s.sys.client B).aborted = false ∧ κ B l = some .unread := by
  rcases fs_sys hs with ⟨heq,-⟩ | ⟨A,op,p,m,rfl,htask,hm,hsys⟩ | ⟨e',rfl,he',hsys⟩
  · rw [heq] at hd
    exact Or.inl hd
  · rcases doomed_sys h.ordered (by simp) hsys hd with h1 | ⟨T,heq⟩ | ⟨T,m',heq,hrec⟩ |
      ⟨T,unlink,read,heq,hsec,hcopy,hx⟩
    · exact Or.inl h1
    · cases heq
      obtain ⟨k,rfl⟩ := remove_move hm
      rcases remove_not_busy hsys with heq | ⟨-,hidle⟩
      · rw [heq] at hd
        exact Or.inl ((same_abort s.sys _ l).2 _ hd)
      · exact Or.inr (Or.inl ⟨op, k, rfl, htask, hidle⟩)
    · cases heq
      rw [simple_reconnects (standing_simple (h.standing _) (step_running hsys))] at hrec
      cases hrec
    · cases heq
      obtain ⟨k,rfl⟩ := release_move hm
      have hrun := step_running hsys
      exact Or.inr (Or.inr ⟨op, k, rfl, htask, hrun, section_known h hrun htask hsec hcopy hx⟩)
  · have hdis : ∀ A, e' ≠ .disconnect A := by
      rintro A rfl
      cases he'
    rcases doomed_sys h.ordered hdis hsys hd with h1 | ⟨T,rfl⟩ | ⟨T,m',rfl,hrec⟩ |
      ⟨T,unlink,read,rfl,-⟩
    · exact Or.inl h1
    · cases he'
    · obtain ⟨rfl,-⟩ := isInner_client he'
      rw [simple_reconnects (standing_simple (h.standing B) (step_running hsys))] at hrec
      cases hrec
    · cases he'

/-- Every step of the file system is such a step of the operations. -/
theorem moves_step (h : s.Inv κ) (hstep : s.step e = some s') :
    ∃ κ', s'.Inv κ' ∧ s.Moves κ s' κ' e := by
  have hs := fs_steps hstep
  obtain ⟨κ',hinv',hadv⟩ := inv_steps h hs
  refine ⟨κ', hinv', ?_⟩
  cases hadv with
  | start hd hd' hκ =>
    refine .start hd hd' hκ ?_
    cases hs
    rfl
  | finish hd hd' hκ =>
    refine .finish hd hd' hκ ?_
    cases hs
    rfl
  | @act A op p p' a K' _ he hrun hd hpath hp hl hd' hκ hrun' hagree =>
    refine .act he hrun hd hpath hp hl hd' hκ hrun' hagree (fun l => ?_) (fun l B hB => ?_)
    · rcases fs_content h hs l with h1 | ⟨B,op',buf,k,rfl,htask,hbuf,-⟩ |
        ⟨B,op',k,rfl,htask,-,hcopy⟩
      · exact Or.inl h1
      · cases he
        rw [doing_eq htask] at hd
        cases hd
        cases step_steps hp with
        | put r =>
          cases hl with
          | put => exact Or.inr (Or.inl ⟨buf, rfl, hbuf⟩)
      · cases he
        rw [doing_eq htask] at hd
        cases hd
        cases step_steps hp with
        | remove r =>
          cases hl with
          | remove => exact Or.inr (Or.inr ⟨rfl, hcopy⟩)
    · rcases fs_doomed h hs hB with h1 | ⟨op',k,rfl,htask,-⟩ | ⟨op',k,rfl,htask,-,hk⟩
      · exact Or.inl h1
      · cases he
        rw [doing_eq htask] at hd
        cases hd
        cases step_steps hp with
        | remove r =>
          cases hl with
          | remove => exact Or.inr ⟨rfl, Or.inl rfl⟩
      · cases he
        rw [doing_eq htask] at hd
        cases hd
        cases step_steps hp with
        | release => exact Or.inr ⟨rfl, Or.inr ⟨rfl, hk⟩⟩
  | quiet hd' hκ hbusy =>
    refine .quiet hd' hκ (fun l => ?_) (fun l B hB => ?_)
    · rcases fs_content h hs l with h1 | ⟨B,op',buf,k,rfl,-,-,hidle⟩ | ⟨B,op',k,rfl,-,hidle,-⟩
      · exact h1
      · exact absurd (hbusy B rfl) hidle
      · exact absurd (hbusy B rfl) hidle
    · rcases fs_doomed h hs hB with h1 | ⟨op',k,rfl,-,hidle⟩ | ⟨op',k,rfl,htask,hrun,hk⟩
      · exact Or.inl h1
      · exact absurd (hbusy B rfl) hidle
      · right
        exact ⟨hrun, op', k, doing_eq htask, (standing_ready (h.standing B) hrun htask).1, hk⟩

theorem has_owner {s : Sys} {T l : ℕ} (hs : s.Ordered) (h : (s.thread A T).Has l) :
    (s.lockTable.info l).owner = some A ∧ ∀ B, ¬ s.DoomedBy l B := by
  obtain ⟨g,ht,ho⟩ := hs.lock l
  obtain ⟨r,hr,hrole⟩ := h.role
  have hgA : ((s.view l g).party A).agent = some (.thread T, r) :=
    (agents_single (ht.agents A) rfl hr).1
  have howns : ((s.view l g).party A).Owns := by
    obtain ⟨h1,h2⟩ := ho.online A
    obtain ⟨read,rfl⟩ | ⟨read,buf,rfl⟩ := hrole <;> simp [Party.Owns, hgA, h1, h2]
  have howner := (ho.good.owner A).mpr howns
  refine ⟨howner, fun B hB => ?_⟩
  obtain ⟨hownerB,-,-,ha⟩ := (doomed_iff ht ho).mpr hB
  obtain rfl := Option.some.inj (howner.symm.trans hownerB)
  rw [hgA] at ha
  rcases ha with ha | ⟨U,ha⟩
  · cases ha
  · obtain ⟨read,rfl⟩ | ⟨read,buf,rfl⟩ := hrole <;> cases ha

/-- Who has a copy has the lock, and the copy is what the extent holds. -/
theorem copy_owner {s : Sys} {l : ℕ} {e : Entry} (hs : s.Ordered)
    (he : (s.client A).localExtent[l]? = some e) :
    (s.lockTable.info l).owner = some A ∧ s.content l = some e.extent := by
  obtain ⟨g,ht,ho⟩ := hs.lock l
  have hcopy : ((s.view l g).party A).copy = some e := he
  have howner := (ho.good.owner A).mpr ((ho.bound A).kept (by simp [hcopy]))
  have howner' : (s.lockTable.info l).owner = some A := howner
  refine ⟨howner, ?_⟩
  simp [Sys.content, howner', he]

/-- What is known is what the extent holds. -/
theorem agrees_content {s : Sys} {K : Knowledge} {l : ℕ} (hs : s.Ordered)
    (ha : ((s.client A).localAt s.table 0).Agrees K) :
    (K l ≠ none → (s.thread A 0).Has l) ∧ (∀ b, K l = some (.content b) → s.content l = some b) ∧
      (K l = some .absent → s.content l = none) := by
  have hhas : K l ≠ none → (s.thread A 0).Has l := fun hk => Or.inl ((ha.held l).mpr hk)
  refine ⟨hhas, fun b hk => ?_, fun hk => ?_⟩
  · obtain ⟨e,he,rfl⟩ := ha.content l b hk
    have howner := (has_owner hs (hhas (by simp [hk]))).1
    have he' : (s.client A).localExtent[l]? = some e := he
    simp [Sys.content, howner, he']
  · obtain ⟨hcopy,hx⟩ := ha.absent l hk
    have howner := (has_owner hs (hhas (by simp [hk]))).1
    have hcopy' : (s.client A).localExtent[l]? = none := hcopy
    have hx' : s.table[l]? = none := hx
    simp [Sys.content, howner, hcopy', hx']

theorem running_path {op : Op} {p : Prog} (h : s.Inv κ)
    (hrun : (s.sys.client A).aborted = false) (hd : s.doing A = some (op, p)) :
    Path op p (κ A) := by
  cases h.standing A with
  | gone hab =>
    rw [hrun] at hab
    cases hab
  | idle htask =>
    simp [Fs.doing, htask] at hd
  | ready htask hpath | busy htask hpath =>
    rw [doing_eq htask] at hd
    cases hd
    exact hpath

/-- An operation that is not giving a lock back knows the extent. -/
theorem known {op : Op} {p : Prog} {l : ℕ} (h : s.Inv κ) (hrun : (s.sys.client A).aborted = false)
    (hd : s.doing A = some (op, p)) (hp : ∀ k, p ≠ .release l k) :
    (κ A l ≠ none → (s.sys.thread A 0).Has l) ∧
      (∀ b, κ A l = some (.content b) → s.sys.content l = some b) ∧
      (κ A l = some .absent → s.sys.content l = none) := by
  cases h.standing A with
  | gone hab =>
    rw [hrun] at hab
    cases hab
  | idle htask =>
    simp [Fs.doing, htask] at hd
  | ready htask _ _ ha => exact agrees_content h.ordered ha
  | busy htask _ hin =>
    rw [doing_eq htask] at hd
    cases hd
    cases hin with
    | acquiring _ _ ha => exact agrees_content h.ordered ha
    | @releasing l' k pc hpk _ _ ha =>
      have hne : l ≠ l' := by
        rintro rfl
        exact hp k hpk
      have := agrees_content (l := l) h.ordered ha
      rw [Function.update_of_ne hne] at this
      exact this
    | @loading l' op' read buf hm hc hk ha =>
      by_cases hne : l = l'
      · subst hne
        refine ⟨fun _ => Or.inr ⟨read, buf, op', ?_⟩, fun b hb => ?_, fun hb => ?_⟩
        · have hc' : (s.sys.thread A 0).calls = [.load l read buf op'] := hc
          simp [hc']
        · rw [hk] at hb
          cases hb
        · rw [hk] at hb
          cases hb
      · have := agrees_content (l := l) h.ordered ha
        rw [Function.update_of_ne hne] at this
        exact this

/-- No lock is in two hands. -/
theorem known_unique {B l : ℕ} {op op' : Op} {p p' : Prog} (h : s.Inv κ)
    (hrun : (s.sys.client A).aborted = false) (hd : s.doing A = some (op, p))
    (hp : ∀ k, p ≠ .release l k) (hk : κ A l ≠ none)
    (hrun' : (s.sys.client B).aborted = false) (hd' : s.doing B = some (op', p'))
    (hp' : ∀ k, p' ≠ .release l k) (hk' : κ B l ≠ none) : A = B := by
  have hA := (has_owner h.ordered ((known h hrun hd hp).1 hk)).1
  have hB := (has_owner h.ordered ((known h hrun' hd' hp').1 hk')).1
  exact Option.some.inj (hA.symm.trans hB)

/-- A process that has ended does not come back. -/
theorem running_back (hs : s.Steps e s') (A : ℕ) (h : (s'.sys.client A).aborted = false) :
    (s.sys.client A).aborted = false := by
  rcases fs_sys hs with ⟨heq,-⟩ | ⟨B,op,p,m,rfl,htask,hm,hsys⟩ | ⟨e',rfl,he',hsys⟩
  · rw [heq] at h
    exact h
  · by_cases hB : A = B
    · rw [hB]
      exact step_running hsys
    · rw [client_others hsys hB] at h
      exact h
  · by_cases hc : ∃ B T m, e' = .client B T m
    · obtain ⟨B,T,m,rfl⟩ := hc
      by_cases hB : A = B
      · rw [hB]
        exact step_running hsys
      · rw [client_others hsys hB] at h
        exact h
    · have hmsg := message_step he' (fun B T m heq => hc ⟨B, T, m, heq⟩) hsys
      exact (hmsg.aborted A).symm.trans h

/-- The lock of an operation that is under way and does not ask for it has been there before. -/
theorem owner_back {op : Op} {p : Prog} {l : ℕ} (h : s.Inv κ) (hs : s.Steps e s')
    (hrun : (s.sys.client A).aborted = false) (hd : s.doing A = some (op, p))
    (hp : ∀ k, p ≠ .acquire l k) (ho : (s'.sys.lockTable.info l).owner = some A) :
    (s.sys.lockTable.info l).owner = some A := by
  have hask : ∀ {e' : Event}, (∀ B, e' ≠ .disconnect B) → s.sys.step e' = some s'.sys →
      (s.sys.lockTable.info l).owner = some A := by
    intro e' he' hsys
    rcases owner_sys h.ordered he' hsys ho with h1 | ⟨T,pc,hmem⟩
    · exact h1
    have hT : T = 0 := by
      by_contra hT
      rw [h.single A T hT] at hmem
      cases hmem
    subst hT
    cases h.standing A with
    | gone hab =>
      rw [hrun] at hab
      cases hab
    | idle htask => simp [Fs.doing, htask] at hd
    | ready _ _ hc =>
      rw [hc] at hmem
      cases hmem
    | busy htask _ hin =>
      rw [doing_eq htask] at hd
      cases hd
      have hcalls : ((s.sys.client A).localAt s.sys.table 0).th.calls =
        (s.sys.thread A 0).calls := rfl
      cases hin with
      | acquiring hpk hc =>
        rw [← hcalls, hc, List.mem_singleton] at hmem
        cases hmem
        exact absurd hpk (hp _)
      | releasing _ hc | loading _ hc =>
        rw [← hcalls, hc, List.mem_singleton] at hmem
        cases hmem
  rcases fs_sys hs with ⟨heq,-⟩ | ⟨B,op',p',m,rfl,htask,hm,hsys⟩ | ⟨e',rfl,he',hsys⟩
  · rw [heq] at ho
    exact ho
  · exact hask (by simp) hsys
  · refine hask ?_ hsys
    rintro B rfl
    cases he'

/-- What holds of the operations that are started holds of those under way. -/
theorem doing_moves {P : Op → Prop} {κ' : ℕ → Knowledge} (h : s.Moves κ s' κ' e)
    (hP : ∀ A op p, s.doing A = some (op, p) → P op) (he : ∀ A op, e = .start A op → P op)
    (A : ℕ) (op : Op) (p : Prog) (hd : s'.doing A = some (op, p)) : P op := by
  cases h with
  | @start B op' _ hs' =>
    rw [hs', Function.update_apply] at hd
    split_ifs at hd
    · cases hd
      exact he B op rfl
    · exact hP A op p hd
  | @act B op' q _ _ _ _ _ _ hs _ _ _ hs' =>
    rw [hs', Function.update_apply] at hd
    split_ifs at hd
    · cases hd
      exact hP B op q hs
    · exact hP A op p hd
  | quiet hs' =>
    rw [hs'] at hd
    exact hP A op p hd
  | finish _ hs' =>
    rw [hs', Function.update_apply] at hd
    split_ifs at hd
    exact hP A op p hd

end

/-- The invariant rule for runs of the file system, with what the operations know. -/
theorem moves_run {C : Fs → FsEvent → Prop} {I : Fs → (ℕ → Knowledge) → Prop}
    (hinit : I Fs.init (fun _ _ => none))
    (hstep : ∀ s κ e s' κ', s.Inv κ → I s κ → C s e → s'.Inv κ' → s.Moves κ s' κ' e →
      s.Steps e s' → I s' κ')
    {es : List FsEvent} {s : Fs} (hc : TraceSystem.Meets Fs.step C Fs.init es)
    (hrun : Fs.run es = some s) : ∃ κ, s.Inv κ ∧ I s κ := by
  refine hc.invariant (I := fun s => ∃ κ, s.Inv κ ∧ I s κ) ?_ ⟨_, inv_init, hinit⟩ hrun
  rintro s e s' ⟨κ,hinv,hI⟩ hCe hse
  obtain ⟨κ',hinv',hmoves⟩ := moves_step hinv hse
  exact ⟨κ', hinv', hstep s κ e s' κ' hinv hI hCe hinv' hmoves (fs_steps hse)⟩

end DisconnectedYfs.YFS
