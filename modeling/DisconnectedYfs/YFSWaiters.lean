import DisconnectedYfs.YFSMutualExclusion

/-! Clients that wait for a lock. The server revokes a lock only when the first client begins to
wait for it, and forgets the waiters when it frees the lock, having noted that each is to be told to
retry. While no client disconnects, this is enough: whoever was answered `RETRY` is still waited
for, or is being told, or has been told. -/
namespace DisconnectedYfs.YFS
open Std

/-- Where somebody waits, the owner knows that it has to give the lock back, or the request of the
first waiter is about to tell it. -/
def LockView.Told (v : LockView) : Prop :=
  v.waiting ≠ [] → ∃ o, v.owner = some o ∧
    ((∃ B T, (o,.sent) ∈ v.mark B T) ∨ (v.party o).Urgent)

/-- An owner that has been told remembers it until its release has been served. -/
theorem partyStep_urgent {k : Kind} {p p' : Party} {x x' : Option FInfo}
    (h : PartyStep k p x p' x') (hf : p.Fits) (ho : p.Owns) (hst : p.stale = false)
    (hp : ∀ a r, p.agent = some (a, r) → r ≠ .resolving ∧ r ≠ .dropped) (hu : p.Urgent) :
    p'.Urgent := by
  cases h
  case ask h => rcases h with ⟨rfl,-⟩ | ⟨rfl,-⟩ <;> simp [Party.Urgent] at hu
  case resolved => exact absurd rfl (hp _ _ rfl).2
  case grant hs _ =>
    rcases hu with hu | hu
    · exact absurd hu hs
    · rcases hf.2 with h | h
      · exact absurd (h.symm.trans hu) (by decide)
      · exact absurd (h.1.symm.trans hu) (by decide)
  all_goals simp_all [Party.Urgent, Party.Owns]

section
variable {k : LockEvent} {v v' : LockView}

/-- Nothing about the waiters changes, and the owner is still told if it was. -/
theorem told_same (ht : v.Told) (hw : v'.waiting ≠ [] → v.waiting ≠ [])
    (ho : v.waiting ≠ [] → v'.owner = v.owner)
    (hm : ∀ o B T, v.owner = some o → (o,.sent) ∈ v.mark B T → (o,.sent) ∈ v'.mark B T)
    (hu : ∀ o, v.owner = some o → (v.party o).Urgent → (v'.party o).Urgent) : v'.Told := by
  intro hne
  have hne' := hw hne
  obtain ⟨o,howner,htold⟩ := ht hne'
  refine ⟨o, (ho hne').trans howner, ?_⟩
  rcases htold with ⟨B,T,hsent⟩ | hurgent
  · exact Or.inl ⟨B, T, hm o B T howner hsent⟩
  · exact Or.inr (hu o howner hurgent)

theorem told_step (h : LockStep k v v') (hg : Good v) (hon : v.Online) (hpe : v.Peaceful)
    (hk : ∀ A, k ≠ .disconnect A) (ht : v.Told) : v'.Told := by
  cases h with
  | @party _ A k p x hstep =>
    refine told_same ht (fun h => h) (fun _ => rfl) (fun _ _ _ _ h => h) (fun o ho hu => ?_)
    simp only [setParty_party]
    split_ifs with hoA
    · subst hoA
      exact partyStep_urgent hstep (hg.fits o) ((hg.owner o).mp ho) (hon o).2 (hpe o) hu
    · exact hu
  | grant => exact fun h => absurd rfl h
  | @wait _ A T o ha ho hw =>
    refine told_same ht (fun _ => hw) (fun _ => rfl) (fun _ _ _ _ h => h) (fun q _ hu => ?_)
    simp only [LockView.setAgent, setParty_party]
    split_ifs with hq
    · subst hq
      exact hu
    · exact hu
  | @firstWait _ A T o ha ho hw =>
    exact fun _ => ⟨o, ho, Or.inl ⟨A, T, by simp⟩⟩
  | @revokeBusy _ B T o hm hs =>
    -- the revoke arrives: the owner now knows
    obtain ⟨howner,-,-⟩ := hg.sent B T o (by rw [hm]; exact List.mem_singleton.mpr rfl)
    refine fun _ => ⟨o, howner, Or.inr (Or.inl ?_)⟩
    by_cases hoB : o = B
    · simp [LockView.setAgent, hoB]
    · simp [LockView.setAgent, hoB]
  | @revokeFree _ B T o cp x hm ho hx =>
    obtain ⟨howner,-,-⟩ := hg.sent B T o (by rw [hm]; exact List.mem_singleton.mpr rfl)
    refine fun _ => ⟨o, howner, Or.inr (Or.inr ?_)⟩
    simp
  | release => exact fun h => absurd rfl h
  | handlerRelease => exact fun h => absurd rfl h
  | @revoked _ B T o ha hB =>
    have hmark : v.mark B T = [(o,.released)] :=
      (hg.marked B T o .released ((hg.released B T o).mpr ha)).1
    refine told_same ht (fun h => h) (fun _ => rfl) (fun q C U hq hsent => ?_) (fun q hq hu => ?_)
    · rw [setMark_mark]
      split_ifs with hCU
      · rw [hCU.1, hCU.2, hmark] at hsent
        exact absurd (List.mem_singleton.mp hsent) (by simp)
      · exact hsent
    · -- the client whose handler ends here is not the owner any more
      have hqo : q ≠ o := by
        rintro rfl
        have howns := ((hg.owner q).mp hq).2
        rw [ha] at howns
        exact howns
      simp only [LockView.setAgent, setMark_party, setParty_party, if_neg hqo]
      by_cases hqB : q = B
      · subst hqB
        rw [if_pos rfl, if_neg hqo]
        exact hu
      · rw [if_neg hqB]
        exact hu
  | @retry _ B s hp hs =>
    refine told_same ht (fun h => h) (fun _ => rfl) (fun _ _ _ _ h => h) (fun q hq hu => ?_)
    simp only [setParty_party]
    split_ifs with hqB
    · subst hqB
      rcases hs with ⟨hs,-⟩ | ⟨hs,-⟩ <;> rcases hu with hu | hu <;> rw [hs] at hu <;> cases hu
    · exact hu
  | disconnect | disconnectOther => exact absurd rfl (hk _)

end

theorem told_run {es : List Event} {s : Sys} (hd : ∀ e ∈ es, ∀ A, e ≠ .disconnect A)
    (hrun : Sys.run es = some s) (l : ℕ) :
    ∃ g, s.Tracks l g ∧ Good (s.view l g) ∧ (s.view l g).Told := by
  have hc : TraceSystem.Meets Sys.step (fun _ e => ∀ A, e ≠ .disconnect A) Sys.init es :=
    TraceSystem.Meets.of_labels hd _
  have hinit : LockView.init.Online ∧ LockView.init.Peaceful ∧ LockView.init.Told := by
    refine ⟨fun _ => ⟨rfl, rfl⟩, fun A a r h => ?_, fun h => absurd rfl h⟩
    cases h
  have hinv := lock_invariant (P := fun v => v.Online ∧ v.Peaceful ∧ v.Told)
    (D := fun k _ => ∀ A, k ≠ .disconnect A) (fun _ A h => absurd rfl (h A)) ?_ hinit ?_ hc hrun
  · obtain ⟨g,ht,hg,-,-,htold⟩ := hinv.2 l
    exact ⟨g, ht, hg, htold⟩
  · intro s e _ _ k hCe hk A hA
    subst hA
    exact hCe A hk
  · intro k v v' hg hP hk _ hls
    exact ⟨online_step hls hk hP.1, peaceful_step hls hP.1 hP.2.1,
      told_step hls hg hP.1 hP.2.1 hk hP.2.2⟩

/-- The server has put the client into the waiting set, and the client has not asked again since:
its request is held up by the revoke it caused, its answer is on its way, or it sleeps. -/
def AcquirePc.Refused : AcquirePc → Prop
  | .revoking _ _ | .reply .retry | .waitRetry => True
  | _ => False

/-- `retry_handler` has run since: it leaves `WAITING` for a reply that is still to come, and takes
a sleeper out of `WAITING`. -/
def AcquirePc.recorded (st : LState) : AcquirePc → Prop
  | .waitRetry => st = .acquiring
  | _ => st = .waiting

/-- A revoke to the owner of the lock has reached it, or belongs to a request at the server. -/
def Sys.OwnerTold (s : Sys) (lid : ℕ) : Prop :=
  ∃ o, (s.lockTable.info lid).owner = some o ∧
    ((∃ B T, .acquire lid (.revoking o .sent) ∈ (s.thread B T).calls) ∨
      ((s.client o).lock lid).state = .releasing ∨ ((s.client o).lock lid).state = .freeRls)

theorem refused_role {pc : AcquirePc} (h : pc.Refused) :
    ∃ r, pc.roles = [r] ∧ (r = .serving ∨ r = .refused ∨ r = .sleeping) ∧
      (r = .sleeping ↔ pc = .waitRetry) := by
  rcases pc with _ | _ | _ | _ | _ | ⟨_ | _⟩ | _ <;>
    simp_all [AcquirePc.Refused, AcquirePc.roles]

/-- A refused client that the server owes nothing has been told. -/
theorem refused_due {p : Party} {T : ℕ} {r : Role} {pc : AcquirePc} (hf : p.Fits)
    (ha : p.agent = some (.thread T, r)) (hr : r = .serving ∨ r = .refused ∨ r = .sleeping)
    (hpc : r = .sleeping ↔ pc = .waitRetry) (hdue : p.due = 0) : pc.recorded p.state := by
  have hstate : p.state = .acquiring ∨ p.state = .waiting := by
    rw [Party.Fits, ha] at hf
    rcases hr with rfl | rfl | rfl
    · exact hf.2
    · exact hf.2
    · exact hf.2
  by_cases hs : r = .sleeping
  · rw [hpc.mp hs]
    rcases hstate with h | h
    · exact h
    · rw [Party.due, ha, hs, h] at hdue
      cases hdue
  · have hrec : pc.recorded p.state = (p.state = .waiting) := by
      unfold AcquirePc.recorded
      split
      · exact absurd (hpc.mpr rfl) hs
      · rfl
    rw [hrec]
    rcases hstate with h | h
    · rcases hr with rfl | rfl | rfl
      · rw [Party.due, ha, h] at hdue
        cases hdue
      · rw [Party.due, ha, h] at hdue
        cases hdue
      · exact absurd rfl hs
    · exact h

theorem mem_marks_sent {th : Thread} {l o : ℕ} (h : (o, .sent) ∈ th.marks l) :
    .acquire l (.revoking o .sent) ∈ th.calls := by
  obtain ⟨f,hf,hm⟩ := List.mem_flatMap.mp h
  unfold Call.marks at hm
  split at hm
  · split_ifs at hm with hl
    · obtain ⟨rfl,rfl⟩ := Prod.mk.inj (List.mem_singleton.mp hm)
      rw [← hl]
      exact hf
    · cases hm
  · cases hm

/-- Whoever was answered `RETRY` and has not asked again is in the waiting set, or has a retry
under way, or was told to retry; a lock with a waiter is locked and its owner knows or is about to;
and a lock that is not locked has neither waiters nor an owner. -/
theorem no_waiter_forgotten {es : List Event} {s : Sys} (hd : ∀ e ∈ es, ∀ A, e ≠ .disconnect A)
    (hrun : Sys.run es = some s) (lid : ℕ) :
    (∀ A T pc, .acquire lid pc ∈ (s.thread A T).calls → pc.Refused →
      A ∈ (s.lockTable.info lid).waiting ∨ (lid, A) ∈ s.retries ∨
        pc.recorded ((s.client A).lock lid).state) ∧
    ((s.lockTable.info lid).waiting ≠ [] →
      (s.lockTable.info lid).locked = true ∧ s.OwnerTold lid) ∧
    ((s.lockTable.info lid).locked = false →
      (s.lockTable.info lid).waiting = [] ∧ (s.lockTable.info lid).owner = none) := by
  obtain ⟨g,ht,hg,htold⟩ := told_run hd hrun lid
  refine ⟨fun A T pc hcall hpc => ?_, fun hw => ?_, fun hl => ?_⟩
  · obtain ⟨r,hroles,hr,hsleep⟩ := refused_role hpc
    have hmem : r ∈ (s.thread A T).roles lid := by
      apply List.mem_append_left
      refine List.mem_flatMap.mpr ⟨_, hcall, ?_⟩
      rw [acquire_roles, hroles]
      exact List.mem_singleton.mpr rfl
    have hagent : ((s.view lid g).party A).agent = some (.thread T, r) :=
      (agents_single (ht.agents A) rfl hmem).1
    have hcount : (s.lockTable.info lid).waiting.count A+s.retries.count (lid, A) =
        ((s.view lid g).party A).due := hg.due A
    by_cases hdue : ((s.view lid g).party A).due = 0
    · exact Or.inr (Or.inr (refused_due (hg.fits A) hagent hr hsleep hdue))
    · have hpos : 0 < (s.lockTable.info lid).waiting.count A ∨ 0 < s.retries.count (lid, A) := by
        omega
      rcases hpos with h | h
      · exact Or.inl (List.count_pos_iff.mp h)
      · exact Or.inr (Or.inl (List.count_pos_iff.mp h))
  · obtain ⟨o,ho,h⟩ := htold hw
    have howner : (s.lockTable.info lid).owner = some o := ho
    refine ⟨?_, o, howner, ?_⟩
    · rw [ht.locked, howner]
      rfl
    · rcases h with ⟨B,T,hsent⟩ | h
      · exact Or.inl ⟨B, T, mem_marks_sent hsent⟩
      · exact Or.inr h
  · have howner : (s.lockTable.info lid).owner = none := by
      rw [ht.locked] at hl
      exact Option.not_isSome_iff_eq_none.mp (by simp [hl])
    exact ⟨hg.idle howner, howner⟩

/-- In `contended` the second client sleeps: it is in the waiting set, and the owner knows. -/
theorem no_waiter_forgotten_contended : ∃ s, Sys.run contended = some s ∧
    .acquire 5 .waitRetry ∈ (s.thread 1 0).calls ∧
    (1 ∈ (s.lockTable.info 5).waiting ∨ (5, 1) ∈ s.retries ∨
      ((s.client 1).lock 5).state = .acquiring) ∧
    (s.lockTable.info 5).locked = true ∧ s.OwnerTold 5 := by
  obtain ⟨s,hrun,hcall,hw⟩ := run_reaches
    (P := fun s => .acquire 5 .waitRetry ∈ (s.thread 1 0).calls ∧ (s.lockTable.info 5).waiting ≠ [])
    (show (Sys.run contended).any _ = true by decide +kernel)
  obtain ⟨h1,h2,-⟩ := no_waiter_forgotten (by simp [contended, acquires, asks]) hrun 5
  exact ⟨s, hrun, hcall, h1 1 0 _ hcall trivial, h2 hw⟩

end DisconnectedYfs.YFS
