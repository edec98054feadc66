import DisconnectedYfs.YFSLockRuns

/-! While no client disconnects, at most one thread of the whole system has a lock, and the lock
server knows its client. -/
namespace DisconnectedYfs.YFS
open Std

/-- The thread is between a return of `acquire(lid)` and its `release(lid)`; it may be inside
`get_helper` there. -/
def Thread.Holds (th : Thread) (lid : ℕ) : Prop :=
  (∃ read, (lid, read) ∈ th.held) ∨ ∃ read buf op, .load lid read buf op ∈ th.calls

/-- Every client is connected and has no stale lock. -/
def LockView.Online (v : LockView) : Prop :=
  ∀ A, (v.party A).offline = false ∧ (v.party A).stale = false

theorem partyStep_online {k : Kind} {p p' : Party} {x x' : Option FInfo}
    (h : PartyStep k p x p' x') (ho : p.offline = false ∧ p.stale = false) :
    p'.offline = false ∧ p'.stale = false := by
  cases h <;> simp_all

theorem online_step {k : LockEvent} {v v' : LockView} (h : LockStep k v v')
    (hk : ∀ A, k ≠ .disconnect A) (ho : v.Online) : v'.Online := by
  intro C
  cases h with
  | party hp =>
    have := partyStep_online hp (ho _)
    simp only [setParty_party]
    split_ifs
    · exact this
    · exact ho C
  | disconnect | disconnectOther => exact absurd rfl (hk _)
  | revokeBusy | revoked =>
    simp only [LockView.setAgent, setMark_party, setParty_party]
    split_ifs <;> simp [ho _]
  | _ =>
    simp only [LockView.setAgent, setMark_party, setParty_party, freed_party]
    split_ifs <;> simp [ho _]

/-- Nobody is in the conflict branch. -/
def LockView.Peaceful (v : LockView) : Prop :=
  ∀ A a r, (v.party A).agent = some (a, r) → r ≠ .resolving ∧ r ≠ .dropped

theorem partyStep_peaceful {k : Kind} {p p' : Party} {x x' : Option FInfo}
    (h : PartyStep k p x p' x') (hst : p.stale = false)
    (hp : ∀ a r, p.agent = some (a, r) → r ≠ .resolving ∧ r ≠ .dropped) :
    ∀ a r, p'.agent = some (a, r) → r ≠ .resolving ∧ r ≠ .dropped := by
  cases h
  case take hr | grant hr | grantStale hr _ | grantRevoked hr | resolved hr =>
    obtain ⟨-,rfl⟩ | ⟨-,rfl⟩ := hr <;> simp
  all_goals simp_all

theorem peaceful_step {k : LockEvent} {v v' : LockView} (h : LockStep k v v') (ho : v.Online)
    (hp : v.Peaceful) : v'.Peaceful := by
  intro C
  cases h with
  | @party _ A k p x hstep =>
    have := partyStep_peaceful hstep (ho A).2 (hp A)
    simp only [setParty_party]
    split_ifs
    · exact this
    · exact hp C
  | _ =>
    simp only [LockView.setAgent, setMark_party, setParty_party, freed_party]
    split_ifs <;> first | exact hp _ | simp

section
variable {s : Sys} {A T B U l : ℕ} {g : ℕ → Option (Agent × Role)}

/-- A thread in the conflict branch is an activity that is not peaceful. -/
theorem no_resolving (ht : s.Tracks l g) (hp : (s.view l g).Peaceful) {stage : Stage}
    (h : .resolve l stage ∈ (s.thread A T).calls) : False := by
  have hr : stage.role ∈ (s.thread A T).roles l := by
    apply List.mem_append_left
    exact List.mem_flatMap.mpr ⟨_, h, by simp⟩
  have hgA := (agents_single (ht.agents A) rfl hr).1
  obtain ⟨h1,h2⟩ := hp A (.thread T) stage.role hgA
  obtain h3 | h3 := stage_role stage
  · exact h1 h3
  · exact h2 h3

/-- The holder of a lock is the one activity of its client. -/
theorem holds_agent (ht : s.Tracks l g) (h : (s.thread A T).Holds l) :
    ∃ r, g A = some (.thread T, r) ∧
      ((∃ read, r = .holding read) ∨ ∃ read buf, r = .loading read buf) := by
  obtain ⟨read,hm⟩ | ⟨read,buf,op,hm⟩ := h
  · have hr : .holding read ∈ (s.thread A T).roles l := by
      apply List.mem_append_right
      exact List.mem_map.mpr ⟨(l, read), List.mem_filter.mpr ⟨hm, by simp⟩, rfl⟩
    exact ⟨_, (agents_single (ht.agents A) rfl hr).1, Or.inl ⟨read, rfl⟩⟩
  · have hr : .loading read buf ∈ (s.thread A T).roles l := by
      apply List.mem_append_left
      exact List.mem_flatMap.mpr ⟨_, hm, by simp⟩
    exact ⟨_, (agents_single (ht.agents A) rfl hr).1, Or.inr ⟨read, buf, rfl⟩⟩

theorem holder_owns (ht : s.Tracks l g) (hg : Good (s.view l g)) (ho : (s.view l g).Online)
    (h : (s.thread A T).Holds l) : (s.lockTable.info l).owner = some A := by
  apply (hg.owner A).mpr
  refine ⟨(ho A).1, ?_⟩
  obtain ⟨r,hgA,hr⟩ := holds_agent ht h
  have hagent : ((s.view l g).party A).agent = some (.thread T, r) := hgA
  rw [hagent]
  obtain ⟨read,rfl⟩ | ⟨read,buf,rfl⟩ := hr
  · exact (ho A).2
  · exact (ho A).2

end

/-- A run without disconnection keeps every client online. -/
theorem online_run {C : Sys → Event → Prop} (hC : ∀ s A, ¬ C s (.disconnect A)) {es : List Event}
    {s : Sys} (hc : TraceSystem.Meets Sys.step C Sys.init es) (hrun : Sys.run es = some s) :
    s.Sound ∧ ∀ l, ∃ g, s.Tracks l g ∧ Good (s.view l g) ∧ (s.view l g).Online := by
  refine lock_invariant (P := LockView.Online) (D := fun k _ => ∀ A, k ≠ .disconnect A) ?_ ?_
    (fun _ => ⟨rfl, rfl⟩) (fun k v v' _ ho hk _ hls => online_step hls hk ho) hc hrun
  · intro s A h
    exact absurd h (hC s A)
  · intro s e _ _ k hCe hk A hA
    subst hA
    obtain rfl := hk
    exact hC s A hCe

theorem at_most_one_holder {es : List Event} {s : Sys} (hd : ∀ e ∈ es, ∀ A, e ≠ .disconnect A)
    (hrun : Sys.run es = some s) {A T l : ℕ} (hA : (s.thread A T).Holds l) :
    ((s.lockTable.info l).locked = true ∧ (s.lockTable.info l).owner = some A) ∧
      ∀ B U, (s.thread B U).Holds l → B = A ∧ U = T := by
  have hc : TraceSystem.Meets Sys.step (fun _ e => ∀ A, e ≠ .disconnect A) Sys.init es :=
    TraceSystem.Meets.of_labels hd _
  obtain ⟨g,ht,hg,ho⟩ := (online_run (fun _ A h => h A rfl) hc hrun).2 l
  have howner := holder_owns ht hg ho hA
  refine ⟨⟨?_, howner⟩, ?_⟩
  · rw [ht.locked, howner]
    rfl
  · intro B U hB
    have hBA : B = A := by
      have := holder_owns ht hg ho hB
      rw [howner] at this
      exact (Option.some.inj this).symm
    subst hBA
    obtain ⟨r,h1,-⟩ := holds_agent ht hA
    obtain ⟨q,h2,-⟩ := holds_agent ht hB
    rw [h1] at h2
    cases h2
    exact ⟨rfl, rfl⟩

/-- One client has the lock, has been told to give it back, and another waits for it. -/
def contended : List Event :=
  acquires 0 0 5 ++ asks 1 0 5 ++ [.serve 1 0, .revoke 1 0, .client 1 0 .wake]

theorem holder_excludes_waiter : ∃ s, Sys.run contended = some s ∧ (s.thread 0 0).Holds 5 ∧
    ∀ B U, (s.thread B U).Holds 5 → B = 0 ∧ U = 0 := by
  obtain ⟨s,hrun,hs⟩ := run_reaches
    (P := fun s => (5, false) ∈ (s.thread 0 0).held)
    (show (Sys.run contended).any _ = true by decide +kernel)
  have hholds : (s.thread 0 0).Holds 5 := Or.inl ⟨false, hs⟩
  refine ⟨s, hrun, hholds, ?_⟩
  exact (at_most_one_holder (by simp [contended, acquires, asks]) hrun hholds).2

end DisconnectedYfs.YFS
