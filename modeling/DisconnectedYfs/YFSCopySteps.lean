import DisconnectedYfs.YFSSystemSimulation

/-! What every step, whatever the state it is taken in, does to a client's copy of an extent and to
the extent server's. -/
namespace DisconnectedYfs.YFS
open Std

/-- The extent that a move of thread `T` flushes. -/
def Client.flushes (c : Client) (T : ℕ) : Move → Option ℕ
  | .turn _ _ =>
    match (c.thread T).calls with
    | .release lid .start :: _ => if (c.lock lid).state = .releasing then some lid else none
    | _ => none
  | _ => none

/-- The extent whose `get_helper` a move of thread `T` ends. -/
def Client.loads (c : Client) (T : ℕ) : Move → Option ℕ
  | .loadAttr =>
    match (c.thread T).calls with
    | [.load lid _ _ _] => some lid
    | _ => none
  | .turn _ _ =>
    match (c.thread T).calls with
    | .resolve l (.fetch _ caller) :: _ => caller.target l
    | _ => none
  | _ => none

/-- The client and the extent whose `flush` an event runs. -/
def Sys.flush? (s : Sys) : Event → Option (ℕ × ℕ)
  | .client A T m => ((s.client A).flushes T m).map (fun lid => (A, lid))
  | .revoke B T =>
    match (s.thread B T).calls with
    | .acquire lid (.revoking o .sent) :: _ =>
      if ((s.client o).lock lid).state = .free then some (o, lid) else none
    | _ => none
  | _ => none

/-- The client and the extent that an event loads. -/
def Sys.load? (s : Sys) : Event → Option (ℕ × ℕ)
  | .client A T m => ((s.client A).loads T m).map (fun lid => (A, lid))
  | _ => none

/-- One client's copy and the server's extent before and after a step. -/
inductive CopyStep (loads flushes : Prop) :
    Option Entry → Option FInfo → Option Entry → Option FInfo → Prop
  | same {cp x} : CopyStep loads flushes cp x cp x
  | drop {cp x} : CopyStep loads flushes cp x none x
  | keep {e e' x} (hv : e'.attr.version = e.attr.version) :
      CopyStep loads flushes (some e) x (some e') x
  | create {e x} (hv : e.attr.version = 0) : CopyStep loads flushes none x (some e) x
  | load {cp e f} (h : loads) (hv : e.attr.version = f.a.version) :
      CopyStep loads flushes cp (some f) (some e) (some f)
  | flush {cp x x'} (h : flushes) (hf : Flushes cp x x') : CopyStep loads flushes cp x none x'

/-- The step leaves the extents as they were, and the client with this cache. -/
def Outcome.Leaves (cache : Cache) (t : Table) : Outcome → Prop
  | .done c' t' => c'.localExtent = cache ∧ t' = t
  | .abort => True
  | .serverAbort => False

/-- The step does what a move with these loads and flushes may do to copies and extents; only a
flush makes the extent server abort. -/
def Outcome.Copies (loads flushes : Option ℕ) (c : Client) (t : Table) (now : UInt32) :
    Outcome → Prop
  | .done c' t' => ∀ l, CopyStep (loads = some l) (flushes = some l) c.localExtent[l]? t[l]?
      c'.localExtent[l]? t'[l]?
  | .abort => True
  | .serverAbort => ∃ lid, flushes = some lid ∧ c.localExtent.flush t lid now = none

section Moves
variable {c c₀ : Client} {t : Table} {now : UInt32} {T l lid a b : ℕ} {m : Move} {o : Outcome}
  {rest : List Call} {loads flushes : Option ℕ}

theorem leaves_copies {cache : Cache} (h : o.Leaves cache t)
    (hc : ∀ l, CopyStep (loads = some l) (flushes = some l)
      c.localExtent[l]? t[l]? cache[l]? t[l]?) :
    o.Copies loads flushes c t now := by
  cases o with
  | done c' t' =>
    obtain ⟨h1,rfl⟩ := h
    intro l
    rw [h1]
    exact hc l
  | abort => trivial
  | serverAbort => cases h

theorem same_copies (h : o.Leaves c.localExtent t) : o.Copies loads flushes c t now :=
  leaves_copies h (fun _ => .same)

/-- The step changes the copy of one extent only. -/
theorem one_copies {cache : Cache} (eid : ℕ) (h : o.Leaves cache t)
    (ho : ∀ l, eid ≠ l → cache[l]? = c.localExtent[l]?)
    (hc : CopyStep (loads = some eid) (flushes = some eid) c.localExtent[eid]? t[eid]?
      cache[eid]? t[eid]?) : o.Copies loads flushes c t now := by
  apply leaves_copies h
  intro l
  by_cases hl : eid = l
  · subst hl; exact hc
  · rw [ho l hl]; exact .same

/-- No copy comes, goes or changes its version. -/
def Kept (cache cache' : Cache) : Prop :=
  ∀ l : ℕ, cache'[l]? = cache[l]? ∨
    ∃ e e' : Entry, cache[l]? = some e ∧ cache'[l]? = some e' ∧ e'.attr.version = e.attr.version

theorem touch_kept (cache : Cache) (eid : ℕ) (now : UInt32) : Kept cache (cache.touch eid now) := by
  intro l
  rw [cache_touch_getElem]
  rcases cache[l]? with _ | e
  · exact Or.inl rfl
  · refine Or.inr ⟨e, _, rfl, rfl, ?_⟩
    split_ifs <;> rfl

theorem setName_kept (cache : Cache) (eid : ℕ) (name : Str) :
    Kept cache (cache.setName eid name) := by
  intro l
  rw [cache_setName_getElem]
  rcases cache[l]? with _ | e
  · exact Or.inl rfl
  · refine Or.inr ⟨e, _, rfl, rfl, ?_⟩
    split_ifs <;> rfl

theorem finish_kept (op : Access) (cache : Cache) (eid : ℕ) (now : UInt32) :
    Kept cache (op.finish cache eid now) := by
  cases op with
  | get => exact touch_kept cache eid now
  | getattr => exact fun _ => Or.inl rfl
  | rename name => exact setName_kept cache eid name

theorem kept_copyStep {P Q : Prop} {cache cache' : Cache} (h : Kept cache cache') (l : ℕ)
    (x : Option FInfo) : CopyStep P Q cache[l]? x cache'[l]? x := by
  obtain h | ⟨e,e',he,he',hv⟩ := h l
  · rw [h]; exact .same
  · rw [he, he']; exact .keep hv

/-- A put keeps the version of a copy, and makes one of version 0. -/
theorem put_copyStep {P Q : Prop} {cache cache' : Cache} (h : Kept cache cache')
    (eid : ℕ) (buf : Str)
    (now : UInt32) (l : ℕ) (x : Option FInfo) :
    CopyStep P Q cache[l]? x (cache'.put eid buf now)[l]? x := by
  by_cases hl : eid = l
  · subst hl
    obtain ⟨e,he,-,-,-,hv,-⟩ := cache_put_self cache' eid buf now
    rw [he]
    obtain hk | ⟨e₀,e₁,h₀,h₁,hv₁⟩ := h eid
    · rw [hk] at hv
      rcases hc : cache[eid]? with _ | e₀
      · rw [hc] at hv
        exact .create hv
      · rw [hc] at hv
        exact .keep hv
    · rw [h₁] at hv
      rw [h₀]
      exact .keep (hv.trans hv₁)
  · rw [cache_put_other _ _ _ hl]
    exact kept_copyStep h l x

theorem kept_copies {cache : Cache} (h : o.Leaves cache t) (hk : Kept c.localExtent cache) :
    o.Copies loads flushes c t now :=
  leaves_copies h (fun l => kept_copyStep hk l _)

theorem drop_copies (eid : ℕ) (h : o.Leaves (c.localExtent.erase eid) t) :
    o.Copies loads flushes c t now := by
  refine one_copies eid h (fun l hl => by simp [hl]) ?_
  rw [cache_getElem_erase, if_pos rfl]
  exact .drop

theorem acquireDone_leaves {r : Status} :
    (c.acquireDone t T lid r rest).Leaves c.localExtent t := by
  unfold Client.acquireDone
  split
  · exact ⟨rfl, rfl⟩
  · exact ⟨rfl, rfl⟩
  · split_ifs
    · exact ⟨rfl, rfl⟩
    · trivial
  · split_ifs
    · exact ⟨rfl, rfl⟩
    · trivial
  · trivial

theorem releaseDone_leaves : (c.releaseDone t T rest).Leaves c.localExtent t := by
  unfold Client.releaseDone
  split
  · exact ⟨rfl, rfl⟩
  · exact ⟨rfl, rfl⟩
  · exact ⟨rfl, rfl⟩
  · exact acquireDone_leaves (c := c.setLock _ .locked false)
  · exact ⟨rfl, rfl⟩
  · trivial

theorem lockAcquired_copies (h : c.lockAcquired t T lid rest = some o) :
    o.Copies loads flushes c t now := by
  have hlocked : ∀ c₁ : Client,
      ((c₁.setLock lid .locked false).acquireDone t T lid .ok rest).Leaves c₁.localExtent t :=
    fun c₁ => acquireDone_leaves (c := c₁.setLock lid .locked false)
  unfold Client.lockAcquired at h
  dsimp only at h
  split_ifs at h
  · split at h
    · cases h
      exact same_copies (hlocked c)
    · split_ifs at h
      · split at h
        · cases h; trivial
        · cases h; exact same_copies (hlocked c)
        · cases h; exact same_copies ⟨rfl, rfl⟩
      · cases h
        exact drop_copies lid (hlocked (c.setCache (c.localExtent.erase lid)))
  · cases h
    exact same_copies (hlocked c)

theorem acquireReply_copies {r : Reply}
    (h : (c.setLcMutex (some T)).acquireReply t T lid r rest = some o) :
    o.Copies loads flushes c t now := by
  unfold Client.acquireReply at h
  dsimp only at h
  split_ifs at h
  · cases h
    exact same_copies (acquireDone_leaves (c := (c.setLcMutex (some T)).setLock lid .none _))
  · split at h
    · exact lockAcquired_copies (c := c.setLcMutex (some T)) h
    · exact lockAcquired_copies (c := c.setLcMutex (some T)) h
    · cases h; exact same_copies ⟨rfl, rfl⟩
    · cases h; exact same_copies ⟨rfl, rfl⟩
    · cases h; exact same_copies (acquireDone_leaves (c := c.setLcMutex (some T)))

theorem releaseWo_copies (hf : (c.lock lid).state = .releasing → flushes = some lid)
    (h : c.releaseWo t now T lid rest = some o) : o.Copies loads flushes c t now := by
  unfold Client.releaseWo at h
  dsimp only at h
  split at h
  · cases h
    exact same_copies (releaseDone_leaves (c := c.setLock lid _ _))
  · rename_i hs
    split_ifs at h
    · cases h; trivial
    · split at h
      · rename_i hn
        cases h
        exact ⟨lid, hf hs, hn⟩
      · rename_i p hp
        cases h
        obtain ⟨hn,hflush,hother⟩ := flush_flushes (show _ = some (p.1, p.2) from hp)
        intro l
        change CopyStep _ _ c.localExtent[l]? t[l]? p.1[l]? p.2[l]?
        by_cases hl : lid = l
        · subst hl
          rw [hn]
          exact .flush (hf hs) hflush
        · rw [(hother l hl).1, (hother l hl).2]
          exact .same
  · cases h; trivial

theorem load_copies {c' : Client} {eid : ℕ} {buf : Str} {attr : Attr} {cache : Cache}
    (hl : loads = some eid) (ht : t.getattr eid = some attr)
    (hk : Kept (c.localExtent.load eid buf attr) cache) (hc : c'.localExtent = cache) :
    (Outcome.done c' t).Copies loads flushes c t now := by
  obtain ⟨f,hf,rfl⟩ := Option.map_eq_some_iff.mp ht
  intro l
  rw [hc]
  by_cases he : eid = l
  · subst he
    rw [hf]
    have hload : (c.localExtent.load eid buf f.a)[eid]? = some ⟨false, buf, f.a⟩ := by
      simp [Cache.load]
    obtain h | ⟨e,e',h1,h2,hv⟩ := hk eid
    · rw [h, hload]
      exact .load hl rfl
    · rw [h2]
      rw [hload] at h1
      cases h1
      exact .load hl hv
  · have hload : (c.localExtent.load eid buf f.a)[l]? = c.localExtent[l]? := by
      simp [Cache.load, he]
    rw [← hload]
    exact kept_copyStep hk l _

theorem resolveStep_copies {stage : Stage}
    (hl : ∀ buf caller, stage = .fetch buf caller → loads = caller.target l)
    (h : c.resolveStep t now T a b l rest stage = some o) : o.Copies loads flushes c t now := by
  cases stage with
  | draw =>
    cases h
    exact same_copies ⟨rfl, rfl⟩
  | probe n =>
    simp only [Client.resolveStep] at h
    obtain ⟨e,-,rfl⟩ | ⟨-,-,rfl⟩ | ⟨buf,rfl⟩ := withExtent_cases h
    · exact kept_copies ⟨rfl, rfl⟩ (touch_kept c.localExtent n now)
    · exact same_copies ⟨rfl, rfl⟩
    · exact same_copies ⟨rfl, rfl⟩
  | copy n tmp =>
    simp only [Client.resolveStep] at h
    obtain ⟨e,-,rfl⟩ | ⟨-,-,rfl⟩ | ⟨buf,rfl⟩ := withExtent_cases h
    · exact leaves_copies ⟨rfl, rfl⟩
        (fun k => put_copyStep (touch_kept c.localExtent l now) n e.extent now k _)
    · trivial
    · exact same_copies ⟨rfl, rfl⟩
  | readTmp n tmp name =>
    simp only [Client.resolveStep] at h
    obtain ⟨e,-,rfl⟩ | ⟨-,-,rfl⟩ | ⟨buf,rfl⟩ := withExtent_cases h
    · split
      · trivial
      · exact kept_copies ⟨rfl, rfl⟩ (touch_kept c.localExtent tmp now)
    · trivial
    · exact same_copies ⟨rfl, rfl⟩
  | enter n tmp name dir =>
    simp only [Client.resolveStep] at h
    obtain ⟨e,-,rfl⟩ | ⟨-,-,rfl⟩ | ⟨buf,rfl⟩ := withExtent_cases h
    · exact leaves_copies ⟨rfl, rfl⟩
        (fun k => put_copyStep (setName_kept c.localExtent n name) tmp dir now k _)
    · trivial
    · exact same_copies ⟨rfl, rfl⟩
  | drop n tmp =>
    simp only [Client.resolveStep, Cache.remove] at h
    split_ifs at h
    split at h
    · cases h; trivial
    · rename_i cache hc
      cases h
      split at hc
      · cases hc
        exact drop_copies l ⟨rfl, rfl⟩
      · cases hc
  | fetch buf caller =>
    simp only [Client.resolveStep] at h
    split at h
    · cases h
    · rename_i eid htarget
      split at h
      · cases h; trivial
      · rename_i attr hattr
        cases h
        exact load_copies ((hl buf caller rfl).trans htarget) hattr (fun _ => Or.inl rfl) rfl
  | acquireNew | releaseNew | acquireTmp | releaseTmp | releaseCopy => cases h

theorem turn_copies (h : c.turn t now T a b = some o) :
    o.Copies (c.loads T (.turn a b)) (c.flushes T (.turn a b)) c t now := by
  unfold Client.turn at h
  split at h <;> rename_i hcalls
  · cases h
    unfold Client.acquireEnter
    dsimp only
    split_ifs
    · trivial
    · exact same_copies ⟨rfl, rfl⟩
  · cases h
    unfold Client.acquireCheck
    dsimp only
    split_ifs
    · exact same_copies ⟨rfl, rfl⟩
    · exact same_copies acquireDone_leaves
    · exact same_copies ⟨rfl, rfl⟩
    · exact same_copies (acquireDone_leaves (c := c.setLock _ .locked _))
  · refine releaseWo_copies ?_ h
    intro hs
    simp [Client.flushes, hcalls, hs]
  · refine resolveStep_copies ?_ h
    rintro buf caller rfl
    simp [Client.loads, hcalls]
  · cases h
    unfold Client.reconnectLoop
    split
    · exact same_copies ⟨rfl, rfl⟩
    · split_ifs
      · trivial
      · exact same_copies ⟨rfl, rfl⟩
      · exact same_copies ⟨rfl, rfl⟩
  · cases h

theorem wake_copies (h : c.wake t T = some o) : o.Copies loads flushes c t now := by
  unfold Client.wake at h
  split at h
  · cases h
    exact same_copies ⟨rfl, rfl⟩
  · exact acquireReply_copies h
  · split_ifs at h
    cases h
    exact same_copies ⟨rfl, rfl⟩
  · cases h
    exact same_copies (releaseDone_leaves (c := (c.setLcMutex (some T)).setLock _ .none _))
  · cases h

/-- What a move of a thread does to copies and extents. -/
theorem move_copies (h : c.move t now T m = some o) :
    o.Copies (c.loads T m) (c.flushes T m) c t now := by
  cases m with
  | callAcquire lid =>
    simp only [Client.move] at h
    split_ifs at h
    cases h
    exact same_copies ⟨rfl, rfl⟩
  | callRelease lid unlink =>
    simp only [Client.move] at h
    split at h
    · cases h
    · split_ifs at h
      · cases h
        exact same_copies ⟨rfl, rfl⟩
      · cases h
        exact same_copies ⟨rfl, rfl⟩
  | turn a b =>
    simp only [Client.move] at h
    split_ifs at h
    exact turn_copies h
  | wake =>
    simp only [Client.move] at h
    split_ifs at h
    exact wake_copies h
  | access lid op =>
    simp only [Client.move, Client.access] at h
    split at h
    · cases h
    · split_ifs at h
      split at h
      · cases h
        exact kept_copies ⟨rfl, rfl⟩ (finish_kept op c.localExtent lid now)
      · split at h
        · cases h
          exact same_copies ⟨rfl, rfl⟩
        · cases h
          exact same_copies ⟨rfl, rfl⟩
  | loadAttr =>
    simp only [Client.move, Client.loadAttr] at h
    split at h
    · rename_i lid read buf op hcalls
      split at h
      · cases h; trivial
      · rename_i attr hattr
        cases h
        exact load_copies (by simp [Client.loads, hcalls]) hattr (finish_kept op _ lid now) rfl
    · cases h
  | put lid buf =>
    simp only [Client.move] at h
    split at h
    · cases h
    · split_ifs at h
      cases h
      exact leaves_copies ⟨rfl, rfl⟩
        (fun k => put_copyStep (fun _ => Or.inl rfl) lid buf now k _)
  | unlinkRemove lid =>
    simp only [Client.move, Cache.remove] at h
    split_ifs at h
    split at h
    · cases h; trivial
    · rename_i cache hc
      cases h
      split at hc
      · cases hc
        exact drop_copies lid ⟨rfl, rfl⟩
      · cases hc
  | reconnect =>
    simp only [Client.move] at h
    split_ifs at h
    cases h
    unfold Client.reconnect
    split_ifs
    · trivial
    · exact same_copies ⟨rfl, rfl⟩

end Moves

section System
variable {s s' : Sys} {e : Event} {A B T l : ℕ}

/-- What a step of the system does to one client's copy of an extent and to the server's. -/
def Sys.Copies (s : Sys) (e : Event) (s' : Sys) (A l : ℕ) : Prop :=
  CopyStep (s.load? e = some (A, l)) (s.flush? e = some (A, l)) (s.client A).localExtent[l]?
    s.table[l]? (s'.client A).localExtent[l]? s'.table[l]?

/-- Steps at which no client loses or gets a copy. -/
theorem messages_copies (hc : ∀ A, (s'.client A).localExtent = (s.client A).localExtent)
    (ht : s'.table = s.table) : s.Copies e s' A l := by
  unfold Sys.Copies
  rw [hc, ht]
  exact .same

theorem cache_sys_setCalls (s : Sys) (B T C : ℕ) (calls : List Call) :
    ((s.setCalls B T calls).client C).localExtent = (s.client C).localExtent := by
  rw [client_setCalls]
  split_ifs with hB
  · subst hB; rfl
  · rfl

theorem cache_setClient_same {o : ℕ} (c' : Client)
    (hc : c'.localExtent = (s.client o).localExtent) (C : ℕ) :
    ((s.setClient o c').client C).localExtent = (s.client C).localExtent := by
  rw [client_setClient]
  split_ifs with hC
  · subst hC; exact hc
  · rfl

theorem cache_answer {o : ℕ} (c' : Client) (hc : c'.localExtent = (s.client o).localExtent)
    (calls : List Call) (C : ℕ) : (((s.setClient o c').setCalls B T calls).client C).localExtent =
      (s.client C).localExtent := by
  rw [cache_sys_setCalls]
  exact cache_setClient_same c' hc C

theorem serveRelease_copies {lid id : ℕ} {calls : List Call} :
    s.Copies e (s.serveRelease lid id B T calls) A l := by
  by_cases ho : (s.lockTable.info lid).owner = some id
  · rw [serveRelease_owner ho]
    exact messages_copies (fun C => cache_sys_setCalls s B T C calls) rfl
  · rw [serveRelease_other ho]
    exact messages_copies (fun _ => rfl) rfl

theorem copyStep_extent {P Q : Prop} {cp cp' : Option Entry} {x x' : Option FInfo}
    (h : CopyStep P Q cp x cp' x') : x' = x ∨ Q ∧ Flushes cp x x' := by
  cases h with
  | flush h hf => exact Or.inr ⟨h, hf⟩
  | _ => exact Or.inl rfl

/-- The other clients, when `B` takes the step. -/
theorem others_copies (hc : ∀ A, B ≠ A → s'.client A = s.client A) (hB : s.Copies e s' B l)
    (A : ℕ) :
    s.Copies e s' A l ∨ ∃ B, B ≠ A ∧ s.flush? e = some (B, l) ∧
      (s'.client A).localExtent[l]? = (s.client A).localExtent[l]? ∧
      Flushes (s.client B).localExtent[l]? s.table[l]? s'.table[l]? := by
  by_cases hA : B = A
  · subst hA; exact Or.inl hB
  · obtain hx | ⟨hf,hx⟩ := copyStep_extent hB
    · left
      unfold Sys.Copies
      rw [hc A hA, hx]
      exact .same
    · exact Or.inr ⟨B, hA, hf, by rw [hc A hA], hx⟩

/-- What a step of the system does to one client's copy of an extent and to the server's: one of
that client's own steps, or another client's flush. -/
theorem step_copies (h : s.step e = some s') (A l : ℕ) :
    s.Copies e s' A l ∨ ∃ B, B ≠ A ∧ s.flush? e = some (B, l) ∧
      (s'.client A).localExtent[l]? = (s.client A).localExtent[l]? ∧
      Flushes (s.client B).localExtent[l]? s.table[l]? s'.table[l]? := by
  have hup : ∀ o : Option Sys, (if s.lockServerUp = true then o else none) = some s' →
      o = some s' := by
    intro o ho
    split_ifs at ho
    exact ho
  cases e with
  | client B T m =>
    simp only [Sys.step] at h
    split_ifs at h
    split at h
    · cases h
    · rename_i c' t' hmove
      cases h
      have hcopy : CopyStep _ _ _ _ _ _ := move_copies hmove l
      refine others_copies (B := B) ?_ ?_ A
      · intro C hC
        exact (client_setClient s B C c').trans (if_neg hC)
      · have hB : ({ s.setClient B c' with table := t' } : Sys).client B = c' :=
          (client_setClient s B B c').trans (if_pos rfl)
        unfold Sys.Copies
        rw [hB]
        simpa [Sys.load?, Sys.flush?] using hcopy
    · cases h
      exact Or.inl (messages_copies (cache_setClient_same _ rfl) rfl)
    · cases h
      exact Or.inl (messages_copies (fun _ => rfl) rfl)
  | serve B T =>
    left
    replace h := hup _ h
    unfold Sys.serve at h
    split at h
    · cases h
      exact messages_copies (fun C => cache_sys_setCalls s B T C _) rfl
    · cases h
      exact serveRelease_copies
    · cases h
  | revoke B T =>
    obtain ⟨lid,o,rest,hcalls,⟨-,rfl⟩ | ⟨-,st,-,rfl⟩ | ⟨-,hs,⟨-,rfl⟩ | ⟨c,t,hflush,rfl⟩⟩⟩ :=
      revoke_cases (hup _ h)
    · exact Or.inl (messages_copies (fun _ => rfl) rfl)
    · exact Or.inl (messages_copies (cache_answer ((s.client o).setLock lid st false) rfl _) rfl)
    · exact Or.inl (messages_copies (fun _ => rfl) rfl)
    · obtain ⟨hn,hf,hother⟩ := flush_flushes hflush
      have hfl : s.flush? (.revoke B T) = some (o, lid) := by simp [Sys.flush?, hcalls, hs]
      have hcache : ∀ C, (({ (s.setClient o (((s.client o).setLock lid .freeRls false).setCache
          c)).setCalls B T (.acquire lid (.revoking o .releasing) :: rest) with table := t } :
          Sys).client C).localExtent = if o = C then c else (s.client C).localExtent := by
        intro C
        refine (cache_sys_setCalls _ B T C _).trans ?_
        rw [client_setClient]
        split_ifs <;> rfl
      by_cases hl : lid = l
      · subst hl
        by_cases hA : o = A
        · subst hA
          left
          unfold Sys.Copies
          rw [hcache, if_pos rfl, hn]
          exact .flush hfl hf
        · refine Or.inr ⟨o, hA, hfl, ?_, hf⟩
          rw [hcache, if_neg hA]
      · left
        unfold Sys.Copies
        change CopyStep _ _ _ _ _ t[l]?
        rw [hcache, (hother l hl).2]
        split_ifs with hA
        · subst hA
          rw [(hother l hl).1]
          exact .same
        · exact .same
  | serveRevoked B T =>
    left
    replace h := hup _ h
    unfold Sys.serveRevoked at h
    split at h
    · cases h
      exact serveRelease_copies
    · cases h
  | revoked B T =>
    left
    replace h := hup _ h
    unfold Sys.revoked at h
    split at h
    · rename_i lid o rest hcalls
      dsimp only at h
      split_ifs at h
      cases h
      exact messages_copies
        (cache_answer ((s.client o).setLock lid .none ((s.client o).lock lid).stale) rfl _) rfl
    · cases h
  | retry lid B =>
    left
    obtain ⟨-,⟨-,rfl⟩ | ⟨-,st,-,rfl⟩⟩ := retry_cases (hup _ h)
    · exact messages_copies (fun _ => rfl) rfl
    · exact messages_copies (cache_setClient_same (s := s) (o := B)
        ((s.client B).setLock lid st ((s.client B).lock lid).stale) rfl) rfl
  | disconnect B =>
    left
    replace h := hup _ h
    unfold Sys.disconnect at h
    dsimp only at h
    split_ifs at h
    cases h
    exact messages_copies (cache_setClient_same (s := s) (o := B) (s.client B).goOffline rfl) rfl
  | clock now =>
    cases h
    exact Or.inl (messages_copies (fun _ => rfl) rfl)

/-- Only a flush makes the extent server abort. -/
theorem step_extentServerUp (h : s.step e = some s') (hup : s.extentServerUp = true)
    (hf : ∀ A lid, s.flush? e = some (A, lid) →
      (s.client A).localExtent.flush s.table lid s.now ≠ none) : s'.extentServerUp = true := by
  have hsrv : ∀ o : Option Sys, (if s.lockServerUp = true then o else none) = some s' →
      o = some s' := by
    intro o ho
    split_ifs at ho
    exact ho
  have hrelease : ∀ lid id B T calls,
      (s.serveRelease lid id B T calls).extentServerUp = true := by
    intro lid id B T calls
    unfold Sys.serveRelease
    split <;> exact hup
  cases e with
  | client B T m =>
    simp only [Sys.step] at h
    split_ifs at h
    split at h
    · cases h
    · cases h; exact hup
    · cases h; exact hup
    · rename_i hmove
      obtain ⟨lid,hl,hn⟩ := move_copies hmove
      exact absurd hn (hf B lid (by simp [Sys.flush?, hl]))
  | serve B T =>
    replace h := hsrv _ h
    unfold Sys.serve at h
    split at h
    · cases h; exact hup
    · cases h; exact hrelease _ _ _ _ _
    · cases h
  | revoke B T =>
    obtain ⟨lid,o,rest,hcalls,⟨-,rfl⟩ | ⟨-,st,-,rfl⟩ | ⟨-,hs,⟨hn,rfl⟩ | ⟨c,t,-,rfl⟩⟩⟩ :=
      revoke_cases (hsrv _ h)
    · exact hup
    · exact hup
    · exact absurd hn (hf o lid (by simp [Sys.flush?, hcalls, hs]))
    · exact hup
  | serveRevoked B T =>
    replace h := hsrv _ h
    unfold Sys.serveRevoked at h
    split at h
    · cases h; exact hrelease _ _ _ _ _
    · cases h
  | revoked B T =>
    replace h := hsrv _ h
    unfold Sys.revoked at h
    split at h
    · dsimp only at h
      split_ifs at h
      cases h
      exact hup
    · cases h
  | retry lid B =>
    obtain ⟨-,⟨-,rfl⟩ | ⟨-,st,-,rfl⟩⟩ := retry_cases (hsrv _ h)
    · exact hup
    · exact hup
  | disconnect B =>
    replace h := hsrv _ h
    unfold Sys.disconnect at h
    dsimp only at h
    split_ifs at h
    cases h
    exact hup
  | clock now =>
    cases h
    exact hup

end System

end DisconnectedYfs.YFS
