import DisconnectedYfs.YFSDisconnection
import DisconnectedYfs.YFSStepEffects

/-! The assertions of the lock client on lock states. Those of `acquire_wo`, `release_wo` and the
first loop of `disconnect(false)` hold while clients disconnect only when nothing of theirs is under
way. The second loop gives up the mutex for every lock that it acquires again; its assertion holds
as long as nobody else touches the locks that it has yet to come to. -/
namespace DisconnectedYfs.YFS
open Std

/-- The move comes to a `VERIFY` on a lock state, and the state is not what it should be. -/
def Client.verifyFails (c : Client) (T : ℕ) : Move → Bool
  | .turn _ _ =>
    c.lcMutex = some T &&
    match (c.thread T).calls with
    | .acquire lid .start :: _ =>
      c.disconnected && ((c.lock lid).state = .releasing || (c.lock lid).state = .freeRls)
    | .release lid .start :: _ =>
      match (c.lock lid).state with
      | .locked => false
      | .releasing => (c.lock lid).stale || c.disconnected
      | _ => true
    | .reconnect k :: _ => (c.lockStatus.nextKey k).any (fun j => (c.lock j).state.busy)
    | _ => false
  | .reconnect =>
    (c.thread T).idle && c.lcMutex = none && c.disconnected &&
      c.lockStatus.toList.any (fun p => p.2.state.busy)
  | _ => false

theorem verifyFails_aborts {c : Client} {T : ℕ} {m : Move} (h : c.verifyFails T m = true)
    (t : Table) (now : UInt32) : c.move t now T m = some .abort := by
  unfold Client.verifyFails at h
  split at h
  · rename_i a b
    obtain ⟨hm,h⟩ := Bool.and_eq_true_iff.mp h
    simp only [Client.move, if_pos (of_decide_eq_true hm), Client.turn]
    split at h
    · rename_i hcalls
      simp only [hcalls, Client.acquireEnter, if_pos h]
    · rename_i lid _ hcalls
      simp only [hcalls, Client.releaseWo]
      cases hs : (c.lock lid).state with
      | locked =>
        rw [hs] at h
        cases h
      | releasing =>
        rw [hs] at h
        exact if_pos h
      | _ => rfl
    · rename_i hcalls
      obtain ⟨j,hj,hbusy⟩ := (Option.any_eq_true _ _).mp h
      simp only [hcalls, Client.reconnectLoop, hj, if_pos hbusy]
    · cases h
  · obtain ⟨hidle,hany⟩ := Bool.and_eq_true_iff.mp h
    simp only [Client.move, if_pos hidle, Client.reconnect, if_pos hany]
  · cases h

/-- The loop of `disconnect(false)` has yet to come to the lock. -/
def Call.loopsBefore (lid : ℕ) : Call → Bool
  | .reconnect k => k.all (· < lid)
  | _ => false

/-- A thread of the client, other than `T`, is in such a loop. -/
def Client.loopsBefore (c : Client) (T : Option ℕ) (lid : ℕ) : Bool :=
  c.threads.toList.any (fun p => some p.1 ≠ T && p.2.calls.any (Call.loopsBefore lid))

/-- Nobody interferes with a loop of `disconnect(false)`: no other thread of its client sends an
acquire request for a lock that is still ahead of it, and no revoke of such a lock arrives. -/
def Sys.undisturbed (s : Sys) : Event → Bool
  | .client A T (.turn _ _) =>
    match (s.thread A T).calls with
    | .acquire lid .check :: _ =>
      !((s.lockState A lid = .none || s.lockState A lid = .free && ((s.client A).lock lid).stale) &&
        (s.client A).loopsBefore (some T) lid)
    | _ => true
  | .revoke B T =>
    match (s.thread B T).calls with
    | .acquire lid (.revoking o .sent) :: _ => !(s.client o).loopsBefore none lid
    | _ => true
  | _ => true

/-- What the loop of thread `T` of client `A` relies on for a lock that is ahead of it: only `T`
itself may be acquiring it. -/
def Sys.Spares (s : Sys) (A T j : ℕ) : Prop :=
  s.lockState A j ≠ .releasing ∧ s.lockState A j ≠ .freeRls ∧
    (s.lockState A j = .acquiring ∨ s.lockState A j = .waiting → (s.thread A T).roles j ≠ [])

structure LoopInv (s : Sys) : Prop where
  sound : s.Sound
  bottomed : ∀ A T, Bottomed (s.thread A T).calls
  loop : ∀ A T k, .reconnect k ∈ (s.thread A T).calls → ∀ j, k.all (· < j) = true → s.Spares A T j

theorem loopsBefore_of_mem {c : Client} {T U lid : ℕ} {k : Option ℕ}
    (hk : .reconnect k ∈ (c.thread T).calls) (hlid : k.all (· < lid) = true) :
    c.loopsBefore none lid = true ∧ (U ≠ T → c.loopsBefore (some U) lid = true) := by
  have hmem : (T, c.thread T) ∈ c.threads.toList := by
    unfold Client.thread at hk ⊢
    rcases hT : c.threads[T]? with _ | th
    · rw [hT] at hk
      cases hk
    · exact ExtTreeMap.mem_toList_iff_getElem?_eq_some.mpr hT
  have hany : (c.thread T).calls.any (Call.loopsBefore lid) = true :=
    List.any_eq_true.mpr ⟨_, hk, hlid⟩
  refine ⟨List.any_eq_true.mpr ⟨_, hmem, ?_⟩, fun hU => List.any_eq_true.mpr ⟨_, hmem, ?_⟩⟩
  · simpa using hany
  · simp [hany, Ne.symm hU]

section Protocol
variable {k : LockEvent} {v v' : LockView} {A V T : ℕ} {r : Role}

/-- Only a revoke that reaches the client makes it give the lock back. -/
theorem lockStep_urgent (h : LockStep k v v') (hg : Good v) (hk : k ≠ .revoke A)
    (hu : (v'.party A).Urgent) : (v.party A).Urgent := by
  cases h with
  | @party _ B κ p x hstep =>
    simp only [setParty_party] at hu
    split_ifs at hu with hB
    · subst hB
      exact (partyStep_standing hstep (hg.fits A)).2.2.2 hu
    · exact hu
  | @revokeBusy _ B U o hm hs =>
    have ho : A ≠ o := fun h => hk (h ▸ rfl)
    simp only [LockView.setAgent, setMark_party, setParty_party] at hu
    split_ifs at hu with h1 h2
    · exact absurd (h1.trans h2) ho
    · subst h1
      exact hu
    · exact hu
  | @revokeFree _ B U o cp x hm ho hx =>
    have hne : A ≠ o := fun h => hk (h ▸ rfl)
    simp only [setMark_party, setParty_party, if_neg hne] at hu
    exact hu
  | @revoked _ B U o ha hB =>
    simp only [LockView.setAgent, setMark_party, setParty_party] at hu
    split_ifs at hu with h1 h2 h2
    · rcases hu with hu | hu <;> cases hu
    · subst h1
      exact hu
    · rcases hu with hu | hu <;> cases hu
    · exact hu
  | @retry _ B s hp hs =>
    simp only [setParty_party] at hu
    split_ifs at hu with hB
    · rcases hs with ⟨-,rfl⟩ | ⟨-,rfl⟩ <;> rcases hu with hu | hu <;> cases hu
    · exact hu
  | @disconnect _ B ho | @disconnectOther _ B ho =>
    simp only [setParty_party, freed_party] at hu
    split_ifs at hu with hB
    · subst hB
      exfalso
      cases hst : (v.party A).state <;> simp [Party.Urgent, hst, LState.offline] at hu
    · exact hu
  | grant | wait | firstWait | release | handlerRelease =>
    simp only [LockView.setAgent, setMark_party, setParty_party, freed_party] at hu
    split_ifs at hu with hB
    · subst hB
      exact hu
    · exact hu

theorem partyStep_acquiring {κ : Kind} {p p' : Party} {x x' : Option FInfo}
    (h : PartyStep κ p x p' x') (ha : p'.agent = some (.thread V, r))
    (hs : p'.state = .acquiring ∨ p'.state = .waiting) :
    ((p.state = .acquiring ∨ p.state = .waiting) ∧ ∃ q, p.agent = some (.thread V, q)) ∨
      p.agent = none := by
  cases h
  case ask => exact Or.inr rfl
  all_goals simp_all

/-- Who is acquiring the lock after a step was doing so before, or has just begun. -/
theorem lockStep_acquiring (h : LockStep k v v') (hg : Good v)
    (ha : (v'.party A).agent = some (.thread V, r))
    (hs : (v'.party A).state = .acquiring ∨ (v'.party A).state = .waiting) :
    (((v.party A).state = .acquiring ∨ (v.party A).state = .waiting) ∧
      ∃ q, (v.party A).agent = some (.thread V, q)) ∨
    (v.party A).agent = none ∧ ∃ κ, k = .party A κ := by
  cases h with
  | @party _ B κ p x hstep =>
    simp only [setParty_party] at ha hs
    split_ifs at ha hs with hB
    · subst hB
      exact (partyStep_acquiring hstep ha hs).imp_right (fun h => ⟨h, κ, rfl⟩)
    · exact Or.inl ⟨hs, r, ha⟩
  | @grant _ B U hB ho | @wait _ B U o hB ho hw | @firstWait _ B U o hB ho hw =>
    simp only [LockView.setAgent, setMark_party, setParty_party] at ha hs
    split_ifs at ha hs with hAB
    · subst hAB
      obtain ⟨rfl,-⟩ : U = V ∧ _ := by simpa using ha
      exact Or.inl ⟨hs, _, hB⟩
    · exact Or.inl ⟨hs, r, ha⟩
  | @release _ B U hB ho | @handlerRelease _ C U B hB ho =>
    simp only [LockView.setAgent, setMark_party, setParty_party, freed_party] at ha hs
    split_ifs at ha hs with hAB
    · subst hAB
      first
        | (obtain ⟨rfl,-⟩ : U = V ∧ _ := by simpa using ha); exact Or.inl ⟨hs, _, hB⟩
        | simp at ha
    · exact Or.inl ⟨hs, r, ha⟩
  | @revokeBusy _ B U o hm hst =>
    have hB : (v.party B).agent = some (.thread U, .serving) :=
      (hg.marked B U o .sent (by rw [hm]; exact List.mem_singleton.mpr rfl)).2
    simp only [LockView.setAgent, setMark_party, setParty_party] at ha hs
    split_ifs at ha hs with h1 h2 h2
    · rcases hs with hs | hs <;> cases hs
    · subst h1
      obtain ⟨rfl,-⟩ : U = V ∧ _ := by simpa using ha
      exact Or.inl ⟨hs, _, hB⟩
    · rcases hs with hs | hs <;> cases hs
    · exact Or.inl ⟨hs, r, ha⟩
  | @revokeFree _ B U o cp x hm ho hx =>
    simp only [setMark_party, setParty_party] at ha hs
    by_cases h1 : A = o
    · simp [h1] at ha
    · rw [if_neg h1] at ha hs
      exact Or.inl ⟨hs, r, ha⟩
  | @revoked _ B U o hB hB' =>
    simp only [LockView.setAgent, setMark_party, setParty_party] at ha hs
    split_ifs at ha hs with h1 h2 h2
    · rcases hs with hs | hs <;> cases hs
    · subst h1
      obtain ⟨rfl,-⟩ : U = V ∧ _ := by simpa using ha
      exact Or.inl ⟨hs, _, hB'⟩
    · exact Or.inl ⟨hs, r, ha⟩
  | @retry _ B s hp hst =>
    simp only [setParty_party] at ha hs
    split_ifs at ha hs with hB
    · subst hB
      exact Or.inl ⟨hst.imp (fun h => h.1) (fun h => h.1), r, ha⟩
    · exact Or.inl ⟨hs, r, ha⟩
  | @disconnect _ B ho | @disconnectOther _ B ho =>
    simp only [setParty_party, freed_party] at ha hs
    split_ifs at ha hs with hB
    · subst hB
      refine Or.inl ⟨?_, r, ha⟩
      cases hst : (v.party A).state <;> simp [hst, LState.offline] at hs ⊢
    · exact Or.inl ⟨hs, r, ha⟩

end Protocol

section Steps
variable {s s' : Sys} {e : Event} {A T U V j : ℕ} {g : ℕ → Option (Agent × Role)}

/-- A lock that is being acquired has a thread that does it. -/
theorem acquiring_agent (hg : Good (s.view j g))
    (hs : s.lockState A j = .acquiring ∨ s.lockState A j = .waiting) :
    ∃ V r, g A = some (.thread V, r) := by
  have hf := hg.fits A
  have hstate : ((s.view j g).party A).state = s.lockState A j := rfl
  rcases hgA : g A with _ | ⟨V | ⟨B,V⟩,r⟩
  · have hagent : ((s.view j g).party A).agent = none := hgA
    rw [Party.Fits, hagent, hstate] at hf
    rcases hs with hs | hs <;> rw [hs] at hf <;> simp at hf
  · exact ⟨V, r, rfl⟩
  · have hagent : ((s.view j g).party A).agent = some (.handler B V, r) := hgA
    rw [Party.Fits, hagent, hstate] at hf
    rcases hs with hs | hs <;> rw [hs] at hf <;> simp at hf

/-- A thread that is busy with the lock is the one that is. -/
theorem roles_agent (ht : s.Tracks j g) (hr : (s.thread A T).roles j ≠ []) :
    ∃ r, g A = some (.thread T, r) := by
  obtain ⟨r,hmem⟩ := List.exists_mem_of_ne_nil _ hr
  exact ⟨r, (agents_single (ht.agents A) rfl hmem).1⟩

theorem sound_step (hs : s.Sound) (hq : ∀ A, e = .disconnect A → s.quiet A = true)
    (h : s.step e = some s') : s'.Sound := by
  refine ⟨step_settled hs hq h, fun l => ?_⟩
  obtain ⟨g,ht,hg⟩ := hs.good l
  obtain ⟨g',ht',hprog⟩ := step_advances hs ht hg h
  refine ⟨g', ht', ?_⟩
  obtain heq | ⟨k,hk,hls⟩ := hprog
  · rw [heq]
    exact hg
  · refine good_step hg hls (fun A hA => ?_)
    subst hA
    exact quiet_view (hq A hk) ht hg

/-- The step by which a lock that nobody was busy with comes to be acquired: the thread sends its
request. -/
theorem begins_acquiring {m : Move} {c' : Client} (hmoved : Moved (s.client A) V m c')
    (hfree : s.lockState A j = .none ∨ s.lockState A j = .free)
    (hroles : (s.thread A V).roles j = [])
    (hs : (c'.lock j).state = .acquiring ∨ (c'.lock j).state = .waiting) :
    (∃ a b, m = .turn a b) ∧ ∃ rest, (s.thread A V).calls = .acquire j .check :: rest ∧
      (s.lockState A j = .none ∨ s.lockState A j = .free ∧ ((s.client A).lock j).stale = true) := by
  have hsame : (c'.lock j).state ≠ s.lockState A j := by
    intro heq
    rcases hs with hs | hs <;> rcases hfree with hf | hf <;> rw [heq, hf] at hs <;> cases hs
  have hreply : ∀ lid r rest, (s.thread A V).calls = .acquire lid (.reply r) :: rest → lid ≠ j := by
    rintro lid r rest hcalls rfl
    rw [Thread.roles, hcalls] at hroles
    cases r <;> simp [AcquirePc.roles] at hroles
  cases hmoved.effect with
  | stays hlock _ _ _ => exact absurd (hlock j) hsame
  | rises hlock _ _ => exact absurd (hlock j) hsame
  | sleeps hlock _ _ _ => exact absurd (hlock j) hsame
  | givesUp hlock _ _ _ => exact absurd (hlock j) hsame
  | @takes lid rest a b st hlock hcalls _ hst _ =>
    by_cases hj : j = lid
    · subst hj
      rw [hlock, if_pos rfl] at hs
      refine ⟨⟨a, b, rfl⟩, rest, hcalls, ?_⟩
      rcases hst with ⟨-,h | h⟩ | hst
      · exact Or.inl h
      · rcases hfree with hf | hf
        · exact Or.inl hf
        · exact Or.inr ⟨hf, h⟩
      · rcases hs with hs | hs <;> rw [hst] at hs <;> cases hs
    · exact absurd (by rw [hlock, if_neg hj]; rfl) hsame
  | @replied lid rest r st hlock hcalls _ _ =>
    exact absurd (by rw [hlock, if_neg (Ne.symm (hreply lid r rest hcalls))]; rfl) hsame
  | @refused lid rest hlock hcalls _ _ =>
    exact absurd (by rw [hlock, if_neg (Ne.symm (hreply lid _ rest hcalls))]; rfl) hsame
  | released hlock _ _ _ =>
    rcases hlock j with ⟨-,h⟩ | ⟨-,h⟩ | ⟨h,-⟩
    · exact absurd h hsame
    · rcases h with h | h <;> rw [h] at hs <;> simp at hs
    · rw [h] at hs
      simp at hs

/-- The loop stays undisturbed at a lock ahead of it. -/
theorem spares_step (hs : s.Sound) (hb : ∀ A T, Bottomed (s.thread A T).calls)
    (hcalm : s.calm e = true) (hund : s.undisturbed e = true) (h : s.step e = some s')
    {k : Option ℕ} (hk : .reconnect k ∈ (s.thread A T).calls) (hj : k.all (· < j) = true)
    (hsp : s.Spares A T j) : s'.Spares A T j := by
  obtain ⟨g,ht,hg⟩ := hs.good j
  obtain ⟨g',ht',hprog⟩ := step_advances hs ht hg h
  have hq : ∀ B, e = .disconnect B → s.quiet B = true := by
    rintro B rfl
    exact hcalm
  obtain ⟨hrel,hfree,hacq⟩ := hsp
  have hstate : ∀ B, ((s.view j g).party B).state = s.lockState B j := fun _ => rfl
  have hstate' : ((s'.view j g').party A).state = s'.lockState A j := rfl
  have hurgent : ¬ ((s'.view j g').party A).Urgent := by
    intro hu
    obtain heq | ⟨κ,hκ,hls⟩ := hprog
    · rw [heq] at hu
      exact hu.elim hrel hfree
    · have hne : κ ≠ .revoke A := by
        rintro rfl
        obtain ⟨B,U,rest,rfl,hcalls⟩ := hκ
        simp only [Sys.undisturbed, hcalls, (loopsBefore_of_mem (U := 0) hk hj).1] at hund
        cases hund
      exact (lockStep_urgent hls hg hne hu).elim hrel hfree
  refine ⟨fun h => hurgent (Or.inl h), fun h => hurgent (Or.inr h), fun hst => ?_⟩
  have hg' : Good (s'.view j g') := by
    obtain heq | ⟨κ,hκ,hls⟩ := hprog
    · rw [heq]
      exact hg
    · refine good_step hg hls (fun B hB => ?_)
      subst hB
      exact quiet_view (hq B hκ) ht hg
  obtain ⟨V,r,hgV⟩ := acquiring_agent hg' hst
  have hagent : ((s'.view j g').party A).agent = some (.thread V, r) := hgV
  -- it is the thread of the loop itself
  have hVT : V = T := by
    have hsame : ∀ q, (s.lockState A j = .acquiring ∨ s.lockState A j = .waiting) →
        g A = some (.thread V, q) → V = T := by
      intro q hst hq
      obtain ⟨q',hT⟩ := roles_agent ht (hacq hst)
      rw [hq] at hT
      simp only [Option.some.injEq, Prod.mk.injEq, Agent.thread.injEq] at hT
      exact hT.1
    obtain heq | ⟨κ,hκ,hls⟩ := hprog
    · rw [heq] at hagent hstate'
      exact hsame r (by rw [← hstate, hstate']; exact hst) hagent
    · obtain ⟨hst₀,q,hq⟩ | ⟨hnone,κ',rfl⟩ := lockStep_acquiring hls hg hagent
        (by rw [hstate']; exact hst)
      · exact hsame q hst₀ hq
      · -- nobody was busy with the lock, so somebody has just asked for it
        by_contra hne
        obtain ⟨W,m,rfl,-⟩ := hκ
        have hfits := hg.fits A
        rw [Party.Fits, hnone] at hfits
        have hroles : ∀ U, (s.thread A U).roles j = [] := by
          intro U
          have := ht.agents A U
          rw [show g A = none from hnone] at this
          exact this
        have hmem : r ∈ (s'.thread A V).roles j := agent_role ht' hgV
        cases step_effect hb h with
        | stays hthread _ _ =>
          rw [hthread, hroles] at hmem
          cases hmem
        | served hserved _ =>
          rw [hserved.lock] at hst
          rcases hst with hst | hst <;> rcases hfits.1 with hf | hf <;>
            rw [← hstate, hf] at hst <;> cases hst
        | @client _ _ _ c' hmoved hclient =>
          have hc' : s'.client A = c' := by rw [hclient, if_pos rfl]
          have hWV : V = W := by
            by_contra hVW
            have hthread : s'.thread A V = s.thread A V := by
              unfold Sys.thread
              rw [hc']
              exact hmoved.others V hVW
            rw [hthread, hroles] at hmem
            cases hmem
          subst hWV
          unfold Sys.lockState at hst
          rw [hc'] at hst
          obtain ⟨⟨a,b,rfl⟩,rest,hcalls,hfree'⟩ := begins_acquiring hmoved hfits.1 (hroles V) hst
          have hloop := (loopsBefore_of_mem (U := V) hk hj).2 hne
          simp only [Sys.undisturbed, hcalls, hloop, Bool.and_true, Bool.not_eq_true',
            Bool.or_eq_false_iff, decide_eq_false_iff_not] at hund
          rcases hfree' with hf | ⟨hf,hstale⟩
          · exact hund.1 hf
          · simp [hf, hstale] at hund
  subst hVT
  intro hnil
  have := agent_role ht' hgV
  rw [hnil] at this
  cases this

theorem nextKey_lt {m : LockMap} {k : Option ℕ} {j : ℕ} (h : m.nextKey k = some j) :
    k.all (· < j) = true := by
  unfold LockMap.nextKey at h
  have := List.find?_some h
  exact this

theorem all_lt_trans {k : Option ℕ} {i j : ℕ} (hk : k.all (· < i) = true) (hij : i < j) :
    k.all (· < j) = true := by
  cases k with
  | none => rfl
  | some n =>
    simp only [Option.all_some, decide_eq_true_eq] at hk ⊢
    omega

theorem loop_step (hi : LoopInv s) (hcalm : s.calm e = true) (hund : s.undisturbed e = true)
    (h : s.step e = some s') : LoopInv s' := by
  have heff := step_effect hi.bottomed h
  have hq : ∀ B, e = .disconnect B → s.quiet B = true := by
    rintro B rfl
    exact hcalm
  refine ⟨sound_step hi.sound hq h, heff.bottomed hi.bottomed, fun A T k hk j hj => ?_⟩
  have hgo : ∀ k₀, .reconnect k₀ ∈ (s.thread A T).calls → k₀.all (· < j) = true →
      s'.Spares A T j := by
    intro k₀ hk₀ hj₀
    exact spares_step hi.sound hi.bottomed hcalm hund h hk₀ hj₀ (hi.loop A T k₀ hk₀ j hj₀)
  rcases heff.stack A T with heq | hswap | ⟨⟨m,rfl⟩,hstack⟩
  · rw [heq] at hk
    exact hgo k hk hj
  · exact hgo k (hswap.mem hk) hj
  · rcases hstack.loop (hi.bottomed A T) hk with hk | ⟨hnil,hbusy⟩ | ⟨k₀,i,hcalls,hi',rfl⟩
    · exact hgo k hk hj
    · -- the loop begins: its first loop has seen no such lock
      have hsame : s'.lockState A j = s.lockState A j := by
        cases heff with
        | stays _ hlock _ => exact hlock A j
        | served hserved _ => exact hserved.lock A j
        | @client _ _ _ c' hmoved hclient =>
          unfold Sys.lockState
          rw [hclient, if_pos rfl]
          cases hmoved.effect with
          | stays hlock _ _ _ => exact hlock j
          | rises _ hcalls _ | sleeps _ hcalls _ _ | givesUp _ hcalls _ _ | takes _ _ hcalls _ _ _
          | replied _ _ hcalls _ _ | refused _ hcalls _ _ | released _ hcalls _ _ =>
            exact absurd (hnil.symm.trans hcalls) (by simp)
      have hj' : (s.lockState A j).busy = false := hbusy j
      unfold Sys.Spares
      rw [hsame]
      cases hst : s.lockState A j <;> rw [hst] at hj' <;> simp_all [LState.busy]
    · refine hgo k₀ (by rw [hcalls]; exact List.mem_singleton.mpr rfl)
        (all_lt_trans (nextKey_lt hi') ?_)
      simpa using hj

/-- A disconnected client is not in the middle of anything. -/
theorem fits_offline {p : Party} (hf : p.Fits) (ho : p.offline = true) : p.state.busy = false := by
  have honline : p.offline = false → p.state.busy = false := by
    intro h
    rw [h] at ho
    cases ho
  have hlocked : p.state = .locked ∨ p.offline = false ∧ p.state = .releasing ∧ p.stale = false →
      p.state.busy = false := by
    rintro (h | ⟨h,-⟩)
    · rw [h]
      rfl
    · exact honline h
  unfold Party.Fits at hf
  split at hf
  · rcases hf.1 with h | h <;> rw [h] <;> rfl
  · exact honline hf.2.1
  · split at hf
    all_goals first | exact honline hf.1 | exact hlocked hf

end Steps

/-- Clients disconnect only while quiet, and reconnect undisturbed. -/
abbrev UndisturbedRun (es : List Event) : Prop :=
  TraceSystem.Meets Sys.step (fun s e => s.calm e = true ∧ s.undisturbed e = true) Sys.init es

theorem loop_run {es : List Event} {s : Sys} (hc : UndisturbedRun es) (hrun : Sys.run es = some s) :
    LoopInv s := by
  refine hc.invariant (fun _ _ _ hi hce h => loop_step hi hce.1 hce.2 h) ?_ hrun
  refine ⟨sound_init, bottomed_init, fun A T k hk => ?_⟩
  cases hk

/-- In such a run no `VERIFY` on a lock state fails, whatever a thread does next. -/
theorem no_lock_verify_fails {es : List Event} {s : Sys} (hc : UndisturbedRun es)
    (hrun : Sys.run es = some s) (A T : ℕ) (m : Move) : (s.client A).verifyFails T m = false := by
  have hi := loop_run hc hrun
  have hoff : (s.client A).disconnected = true →
    ∀ lid, ((s.client A).lock lid).state.busy = false := by
    intro ho lid
    obtain ⟨g,-,hg⟩ := hi.sound.good lid
    exact fits_offline (hg.fits A) ho
  by_contra hfails
  rw [Bool.not_eq_false] at hfails
  unfold Client.verifyFails at hfails
  split at hfails
  · obtain ⟨-,hfails⟩ := Bool.and_eq_true_iff.mp hfails
    split at hfails
    · -- `acquire_wo` on entry
      rename_i lid rest hcalls
      obtain ⟨ho,hst⟩ := Bool.and_eq_true_iff.mp hfails
      have hbusy := hoff ho lid
      simp only [Bool.or_eq_true, decide_eq_true_eq] at hst
      rcases hst with hst | hst <;> rw [hst] at hbusy <;> cases hbusy
    · -- `release_wo` is called by the holder
      rename_i lid rest hcalls
      obtain ⟨g,ht,hg⟩ := hi.sound.good lid
      obtain ⟨hgA,-⟩ := agents_top (ht.agents A) hcalls (release_roles lid .start)
      have hagent : ((s.view lid g).party A).agent = some (.thread T, .leaving) := hgA
      have hfits := hg.fits A
      rw [Party.Fits, hagent] at hfits
      have hfits' : ((s.client A).lock lid).state = .locked ∨ (s.client A).disconnected = false ∧
        ((s.client A).lock lid).state = .releasing ∧ ((s.client A).lock lid).stale = false := hfits
      rcases hfits' with hst | ⟨ho,hst,hstale⟩
      · rw [hst] at hfails
        cases hfails
      · rw [hst, hstale, ho] at hfails
        cases hfails
    · -- the loop comes to its next lock; it holds nothing itself that is busy
      rename_i k rest hcalls
      obtain ⟨j,hj,hbusy⟩ := (Option.any_eq_true _ _).mp hfails
      obtain rfl : rest = [] := hi.bottomed A T [] k rest hcalls
      obtain ⟨h1,h2,h3⟩ := hi.loop A T k
        (by rw [Sys.thread, hcalls]; exact List.mem_singleton.mpr rfl) j
        (nextKey_lt hj)
      have hst : s.lockState A j = .acquiring ∨ s.lockState A j = .waiting := by
        unfold Sys.lockState at h1 h2 ⊢
        cases hs : ((s.client A).lock j).state <;> simp_all [LState.busy]
      obtain ⟨g,ht,hg⟩ := hi.sound.good j
      obtain ⟨r,hgA⟩ := roles_agent ht (h3 hst)
      have hmem : r ∈ (s.thread A T).roles j := agent_role ht hgA
      rw [Thread.roles, show (s.thread A T).calls = [.reconnect k] from hcalls] at hmem
      obtain ⟨read,rfl⟩ := mem_holdRoles (by simpa using hmem)
      have hfits := hg.fits A
      have hagent : ((s.view j g).party A).agent = some (.thread T, .holding read) := hgA
      rw [Party.Fits, hagent] at hfits
      have hfits' : s.lockState A j = .locked ∨ _ ∧ s.lockState A j = .releasing ∧ _ := hfits
      rcases hst with hst | hst <;> rcases hfits' with h | ⟨-,h,-⟩ <;> rw [hst] at h <;> cases h
    · cases hfails
  · -- the first loop
    simp only [Bool.and_eq_true] at hfails
    obtain ⟨⟨-,ho⟩,hany⟩ := hfails
    obtain ⟨⟨lid,l⟩,hmem,hbusy⟩ := List.any_eq_true.mp hany
    have hlock : (s.client A).lock lid = l := by
      unfold Client.lock LockMap.entry
      rw [ExtTreeMap.mem_toList_iff_getElem?_eq_some.mp hmem]
      rfl
    have := hoff ho lid
    rw [hlock, hbusy] at this
    cases this
  · cases hfails

/-- A client goes offline with a cached lock, and is in the loop that acquires it again. -/
theorem no_lock_verify_fails_loop : ∃ s, Sys.run (acquires 0 0 5 ++ releases 0 0 5 ++
      [.disconnect 0, .client 0 1 .reconnect]) = some s ∧
    (s.thread 0 1).calls = [.reconnect none] ∧ (s.client 0).verifyFails 1 (.turn 0 0) = false := by
  obtain ⟨s,hrun,hcalls⟩ := run_reaches
    (P := fun s => (s.thread 0 1).calls = [.reconnect none])
    (show (Sys.run (acquires 0 0 5 ++ releases 0 0 5 ++
      [.disconnect 0, .client 0 1 .reconnect])).any _ = true by decide +kernel)
  exact ⟨s, hrun, hcalls, no_lock_verify_fails (by decide +kernel) hrun 0 1 _⟩

/-- A client goes offline while its request is under way, and reconnects before the answer. -/
theorem reconnect_verify_fails : ∃ s, Sys.run (asks 0 0 5 ++ [.disconnect 0]) = some s ∧
    (s.client 0).verifyFails 1 .reconnect = true ∧
    ∃ s', s.step (.client 0 1 .reconnect) = some s' ∧ (s'.client 0).aborted = true := by
  obtain ⟨s,hrun,hfails,hstep⟩ := run_reaches
    (P := fun s => (s.client 0).verifyFails 1 .reconnect = true ∧
      (s.step (.client 0 1 .reconnect)).any (fun s' => (s'.client 0).aborted) = true)
    (show (Sys.run (asks 0 0 5 ++ [.disconnect 0])).any _ = true by decide +kernel)
  obtain ⟨s',hs',hab⟩ := (Option.any_eq_true _ _).mp hstep
  exact ⟨s, hrun, hfails, s', hs', hab⟩

-- the second loop fails too, in a calm run: another thread asks for a lock that is ahead of it
example : (Sys.run (acquires 0 0 5 ++ releases 0 0 5 ++
    [.disconnect 0, .client 0 1 .reconnect, .client 0 1 (.turn 0 0), .client 0 1 (.turn 0 0),
      .client 0 1 (.turn 0 0)] ++ asks 0 0 7 ++
    [.serve 0 1, .client 0 1 .wake, .client 0 1 (.turn 0 0)])).any
      (fun s => (s.client 0).verifyFails 1 (.turn 0 0)) = true := by decide +kernel

end DisconnectedYfs.YFS
