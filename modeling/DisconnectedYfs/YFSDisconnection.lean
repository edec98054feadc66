import DisconnectedYfs.YFSLockRuns
import DisconnectedYfs.YFSStepEffects

/-! What disconnection does to the agreement between clients and lock server. It is kept as long
as clients go offline only while quiet, and each of three runs shows how it is lost otherwise. -/
namespace DisconnectedYfs.YFS
open Std

/-- `disconnect(true)` is called only while the client is quiet. -/
def Sys.calm (s : Sys) : Event → Bool
  | .disconnect A => s.quiet A
  | _ => true

/-- Every step of the run is calm. -/
abbrev CalmRun (es : List Event) : Prop :=
  TraceSystem.Meets Sys.step (fun s e => s.calm e = true) Sys.init es

theorem calm_run {es : List Event} {s : Sys} (hc : CalmRun es)
    (hrun : Sys.run es = some s) (l : ℕ) :
    ∃ g, s.Tracks l g ∧ Good (s.view l g) := by
  have := lock_invariant (P := fun _ => True) (D := fun _ _ => True) (fun _ _ h => h)
    (fun _ _ _ _ _ _ _ => trivial) trivial (fun _ _ _ _ _ _ _ _ => trivial) hc hrun
  exact this.1.good l

/-- The lock and the client for which an event runs `lock_server_cache::release(lid, id)`. -/
def Sys.releaseRequest (s : Sys) : Event → Option (ℕ × ℕ)
  | .serve A T =>
    match (s.thread A T).calls with
    | .release lid .call :: _ => some (lid, A)
    | _ => none
  | .serveRevoked B T =>
    match (s.thread B T).calls with
    | .acquire lid (.revoking o .releasing) :: _ => some (lid, o)
    | _ => none
  | _ => none

theorem release_request_from_owner {es : List Event} {s : Sys} (hc : CalmRun es)
    (hrun : Sys.run es = some s) {e : Event} {lid id : ℕ}
    (h : s.releaseRequest e = some (lid, id)) :
    (s.lockTable.info lid).locked = true ∧ (s.lockTable.info lid).owner = some id := by
  obtain ⟨g,ht,hg⟩ := calm_run hc hrun lid
  have howner : (s.lockTable.info lid).owner = some id := by
    unfold Sys.releaseRequest at h
    split at h
    · split at h
      · rename_i hcalls
        cases h
        exact releasing_owner ht hg hcalls
      · cases h
    · split at h
      · rename_i hcalls
        cases h
        exact revoking_owner hg hcalls
      · cases h
    · cases h
  refine ⟨?_, howner⟩
  rw [ht.locked, howner]
  rfl

/-- A lock is asked back from its owner; a third client has gone offline. -/
def askedBack : List Event :=
  [.disconnect 2] ++ acquires 0 0 5 ++ asks 1 0 5 ++ [.serve 1 0, .revoke 1 0] ++ releases 0 0 5

theorem release_request_asked_back : ∃ s, Sys.run askedBack = some s ∧
    s.releaseRequest (.serve 0 0) = some (5, 0) ∧
      (s.lockTable.info 5).locked = true ∧ (s.lockTable.info 5).owner = some 0 := by
  obtain ⟨s,hrun,hreq⟩ := run_reaches (P := fun s => s.releaseRequest (.serve 0 0) = some (5, 0))
    (show (Sys.run askedBack).any _ = true by decide +kernel)
  exact ⟨s, hrun, hreq, release_request_from_owner (by decide +kernel) hrun hreq⟩

/-- `disconnect_server` overtakes the release that the client has just sent, and frees the lock. -/
def overtakenRelease : List Event :=
  acquires 0 0 5 ++ asks 1 0 5 ++ [.serve 1 0, .revoke 1 0] ++ releases 0 0 5 ++ [.disconnect 0]

theorem release_request_from_former_owner : ∃ s, Sys.run overtakenRelease = some s ∧
    s.releaseRequest (.serve 0 0) = some (5, 0) ∧
      ¬ ((s.lockTable.info 5).locked = true ∧ (s.lockTable.info 5).owner = some 0) ∧
      (s.step (.serve 0 0)).any (fun s' => !s'.lockServerUp) = true :=
  run_reaches (by decide +kernel)

theorem offline_due {p : Party} (hf : p.Fits) (ho : p.offline = true) : p.due = 0 := by
  obtain ⟨o,s,sl,cp,g⟩ := p
  rcases g with _ | ⟨_ | _,_ | _⟩ <;> simp_all [Party.Fits, Party.due]

/-- The lock server has nothing to ask of a client that is offline. -/
theorem offline_forgotten {s : Sys} {l A : ℕ} {g : ℕ → Option (Agent × Role)}
    (hg : Good (s.view l g)) (ho : (s.client A).disconnected = true) :
    (s.lockTable.info l).owner ≠ some A ∧ A ∉ (s.lockTable.info l).waiting ∧
    (l, A) ∉ s.retries := by
  have hdue := hg.due A
  rw [offline_due (hg.fits A) ho] at hdue
  refine ⟨?_, List.count_eq_zero.mp ?_, List.count_eq_zero.mp ?_⟩
  · intro howner
    have h1 : ((s.view l g).party A).offline = false := ((hg.owner A).mp howner).1
    have h2 : ((s.view l g).party A).offline = true := ho
    rw [h1] at h2
    cases h2
  · exact Nat.eq_zero_of_add_eq_zero_right hdue
  · exact Nat.eq_zero_of_add_eq_zero_left hdue

/-- Somebody waits for a lock of client `A`. -/
def Sys.awaited (s : Sys) (A : ℕ) : Bool :=
  s.lockTable.toList.any (fun p => p.2.owner = some A && p.2.waiting ≠ [])

/-- `disconnect(true)` is called only while the client is quiet and nobody waits for its locks. -/
def Sys.unwaited (s : Sys) : Event → Bool
  | .disconnect A => s.quiet A && !s.awaited A
  | _ => true

/-- Every step of the run is so. -/
abbrev UnwaitedRun (es : List Event) : Prop :=
  TraceSystem.Meets Sys.step (fun s e => s.unwaited e = true) Sys.init es

theorem UnwaitedRun.calm {es : List Event} (hu : UnwaitedRun es) : CalmRun es := by
  refine hu.mono (fun s e he => ?_)
  cases e with
  | disconnect A => exact (Bool.and_eq_true_iff.mp he).1
  | _ => rfl

/-- What takes the lock server down: a release that is not the owner's, a `DISCONNECTED` answer, or
a retry thread with a dangling pointer. -/
inductive Sys.Fatal (s : Sys) : Event → Prop
  | release {e lid id} (hr : s.releaseRequest e = some (lid, id))
      (ho : (s.lockTable.info lid).owner ≠ some id) : Fatal s e
  | revoke {B T lid o rest} (hcalls : (s.thread B T).calls = .acquire lid
      (.revoking o .sent) :: rest)
      (hoff : (s.client o).disconnected = true) : Fatal s (.revoke B T)
  | retry {lid B} (hr : (lid, B) ∈ s.retries)
      (hoff : (s.client B).disconnected = true ∨ (lid, B) ∈ s.dangling) : Fatal s (.retry lid B)

/-- What stays of the lock server in a step that is neither fatal nor a disconnection. -/
structure Sys.Serving (s s' : Sys) : Prop where
  up : s'.lockServerUp = s.lockServerUp
  dangling : s'.dangling = s.dangling

theorem serveRelease_serving (s : Sys) {lid id B T : ℕ} {calls : List Call} :
    s.Serving (s.serveRelease lid id B T calls) ∨ (s.lockTable.info lid).owner ≠ some id := by
  by_cases ho : (s.lockTable.info lid).owner = some id
  · rw [serveRelease_owner ho]
    exact Or.inl ⟨rfl, rfl⟩
  · exact Or.inr ho

theorem serving_step {s s' : Sys} {e : Event} (h : s.step e = some s') :
    s.Serving s' ∨ s.Fatal e ∨ ∃ A, e = .disconnect A ∧ s.disconnect A = some s' := by
  cases e with
  | client A T m =>
    simp only [Sys.step] at h
    split_ifs at h
    split at h <;> cases h
    all_goals exact Or.inl ⟨rfl, rfl⟩
  | serve A T =>
    replace h := of_server_up h
    unfold Sys.serve at h
    split at h
    · cases h
      exact Or.inl ⟨rfl, rfl⟩
    · rename_i hcalls
      cases h
      obtain hs | ho := serveRelease_serving s
      · exact Or.inl hs
      · exact Or.inr (Or.inl (.release (by simp [Sys.releaseRequest, hcalls]) ho))
    · cases h
  | revoke B T =>
    obtain ⟨lid,o,rest,hcalls,⟨hoff,-⟩ | ⟨-,st,-,rfl⟩ | ⟨-,-,⟨-,rfl⟩ | ⟨c,t,-,rfl⟩⟩⟩ :=
      revoke_cases (of_server_up h)
    · exact Or.inr (Or.inl (.revoke hcalls hoff))
    · exact Or.inl ⟨rfl, rfl⟩
    · exact Or.inl ⟨rfl, rfl⟩
    · exact Or.inl ⟨rfl, rfl⟩
  | serveRevoked B T =>
    replace h := of_server_up h
    unfold Sys.serveRevoked at h
    split at h
    · rename_i hcalls
      cases h
      obtain hs | ho := serveRelease_serving s
      · exact Or.inl hs
      · exact Or.inr (Or.inl (.release (by simp [Sys.releaseRequest, hcalls]) ho))
    · cases h
  | revoked B T =>
    replace h := of_server_up h
    unfold Sys.revoked at h
    split at h
    · dsimp only at h
      split_ifs at h
      cases h
      exact Or.inl ⟨rfl, rfl⟩
    · cases h
  | retry lid B =>
    obtain ⟨hr,⟨hoff,-⟩ | ⟨-,st,-,rfl⟩⟩ := retry_cases (of_server_up h)
    · exact Or.inr (Or.inl (.retry hr hoff))
    · exact Or.inl ⟨rfl, rfl⟩
  | disconnect A => exact Or.inr (Or.inr ⟨A, rfl, of_server_up h⟩)
  | clock now =>
    cases h
    exact Or.inl ⟨rfl, rfl⟩

/-- Where nobody waits, `disconnect_server` starts no retry threads. -/
theorem disconnect_serving {s s' : Sys} {A : ℕ} (hw : s.awaited A = false)
    (h : s.disconnect A = some s') : s.Serving s' := by
  have hnone : (s.lockTable.disconnectServer A).2 = [] := by
    refine List.filterMap_eq_nil_iff.mpr (fun p hp => if_neg ?_)
    simpa using List.any_eq_false.mp hw p hp
  unfold Sys.disconnect at h
  dsimp only at h
  split_ifs at h
  cases h
  exact ⟨rfl, by simp [hnone]⟩

/-- A step that takes the server down is not one of an unwaited run. -/
theorem not_fatal {es : List Event} {s : Sys} {e : Event} (hu : UnwaitedRun es)
    (hrun : Sys.run es = some s) (hdangling : s.dangling = []) : ¬ s.Fatal e := by
  intro hf
  cases hf with
  | release hr ho => exact ho (release_request_from_owner hu.calm hrun hr).2
  | @revoke B T lid o rest hcalls hoff =>
    -- the revoke goes to the owner
    obtain ⟨g,-,hg⟩ := calm_run hu.calm hrun lid
    obtain ⟨hmark,-⟩ := revoking_marks hg hcalls
    have howner := (hg.sent B T o (by simp [hmark])).1
    exact (offline_forgotten hg hoff).1 howner
  | @retry lid B hr hoff =>
    obtain ⟨g,-,hg⟩ := calm_run hu.calm hrun lid
    obtain hoff | hd := hoff
    · exact (offline_forgotten hg hoff).2.2 hr
    · rw [hdangling] at hd
      cases hd

theorem unwaited_run {es : List Event} {s : Sys} (hu : UnwaitedRun es)
    (hrun : Sys.run es = some s) : s.lockServerUp = true ∧ s.dangling = [] := by
  refine TraceSystem.Meets.history (I := fun _ s => s.lockServerUp = true ∧ s.dangling = [])
    ⟨rfl, rfl⟩ ?_ hu hrun
  rintro fs e r r' hfs hr ⟨hup,hd⟩ he hstep
  have hserving : r.Serving r' := by
    obtain hs | hf | ⟨A,rfl,hdis⟩ := serving_step hstep
    · exact hs
    · exact absurd hf (not_fatal hfs hr hd)
    · have hw : r.awaited A = false := by simpa using (Bool.and_eq_true_iff.mp he).2
      exact disconnect_serving hw hdis
  exact ⟨hserving.up.trans hup, hserving.dangling.trans hd⟩

/-- The lock server survives: no revoke or retry takes it down, and it has nothing to ask of a
client that is offline. -/
theorem no_disconnected_answer {es : List Event} {s : Sys} (hu : UnwaitedRun es)
    (hrun : Sys.run es = some s) :
    s.lockServerUp = true ∧
    (∀ e s', (∃ B T, e = .revoke B T) ∨ (∃ lid B, e = .retry lid B) → s.step e = some s' →
      s'.lockServerUp = true) ∧
    ∀ A, (s.client A).disconnected = true → ∀ lid, (s.lockTable.info lid).owner ≠ some A ∧
      A ∉ (s.lockTable.info lid).waiting ∧ (lid, A) ∉ s.retries := by
  obtain ⟨hup,hd⟩ := unwaited_run hu hrun
  refine ⟨hup, fun e s' he h => ?_, fun A ho lid => ?_⟩
  · obtain hs | hf | ⟨A,rfl,-⟩ := serving_step h
    · exact hs.up.trans hup
    · exact absurd hf (not_fatal hu hrun hd)
    · obtain ⟨B,T,heq⟩ | ⟨lid,B,heq⟩ := he <;> cases heq
  · obtain ⟨g,-,hg⟩ := calm_run hu.calm hrun lid
    exact offline_forgotten hg ho

/-- A client is offline while a retry for another one is on its way. -/
def retryBesideOffline : List Event :=
  acquires 2 0 7 ++ releases 2 0 7 ++ [.disconnect 2] ++ acquires 0 0 5 ++ asks 1 0 5 ++
    [.serve 1 0, .revoke 1 0, .client 1 0 .wake] ++ releases 0 0 5 ++ [.serve 0 0]

theorem retry_answered_beside_offline : ∃ s s', Sys.run retryBesideOffline = some s ∧
    (s.client 2).disconnected = true ∧ s.step (.retry 5 1) = some s' ∧ s'.lockServerUp = true ∧
      ∀ lid, (s.lockTable.info lid).owner ≠ some 2 ∧ 2 ∉ (s.lockTable.info lid).waiting ∧
        (lid, 2) ∉ s.retries := by
  obtain ⟨s,hrun,hoff,hsome⟩ := run_reaches
    (P := fun s => (s.client 2).disconnected = true ∧ (s.step (.retry 5 1)).isSome = true)
    (show (Sys.run retryBesideOffline).any _ = true by decide +kernel)
  obtain ⟨s',hs'⟩ := Option.isSome_iff_exists.mp hsome
  obtain ⟨-,h1,h2⟩ := no_disconnected_answer (by decide +kernel) hrun
  exact ⟨s, s', hrun, hoff, hs', h1 _ s' (Or.inr ⟨5, 1, rfl⟩) hs', h2 2 hoff⟩

/-- A client disconnects while it waits for a lock, and stays in the waiting set. -/
def waiterGone : List Event :=
  acquires 0 0 5 ++ asks 1 0 5 ++ [.serve 1 0, .revoke 1 0, .client 1 0 .wake, .disconnect 1]

theorem retry_answered_disconnected : ∃ s, Sys.run waiterGone = some s ∧
    (s.client 1).disconnected = true ∧ 1 ∈ (s.lockTable.info 5).waiting ∧
      (TraceSystem.run Sys.step s (releases 0 0 5 ++ [.serve 0 0, .retry 5 1])).any
        (fun s' => !s'.lockServerUp) = true :=
  run_reaches (by decide +kernel)

/-- The owner of a lock disconnects while another client waits for it. -/
def ownerGone : List Event :=
  acquires 0 0 5 ++ asks 1 0 5 ++ [.serve 1 0, .revoke 1 0, .client 1 0 .wake, .disconnect 0]

/-- All other clients are connected, and still the retry is the end of the server. -/
theorem retry_dangles : ∃ s, Sys.run ownerGone = some s ∧ CalmRun ownerGone ∧
    (s.client 1).disconnected = false ∧
      (s.step (.retry 5 1)).any (fun s' => !s'.lockServerUp) = true := by
  obtain ⟨s,hrun,hon,hdown⟩ := run_reaches
    (P := fun s => (s.client 1).disconnected = false ∧
      (s.step (.retry 5 1)).any (fun s' => !s'.lockServerUp) = true)
    (show (Sys.run ownerGone).any _ = true by decide +kernel)
  exact ⟨s, hrun, by decide +kernel, hon, hdown⟩

/-- An acquire or release RPC about `lid` that was sent and whose reply was not received yet; a
revoke is part of the acquire that causes it. -/
def Call.inFlight (lid : ℕ) : Call → Bool
  | .acquire l .call | .acquire l (.revoking _ _) | .acquire l (.reply _) => l = lid
  | .release l .call | .release l .reply => l = lid
  | _ => false

/-- A message or an RPC about the lock is in flight. -/
def Sys.inFlight (s : Sys) (lid : ℕ) : Bool :=
  s.anyCall (Call.inFlight lid) || s.retries.any (fun r => r.1 = lid)

def Call.resolves (lid : ℕ) : Call → Bool
  | .resolve l _ => l = lid
  | _ => false

/-- A thread that has the lock without using it waits for the server or is in the conflict
branch. -/
theorem role_call {th : Thread} {l : ℕ} {r : Role} (h : r ∈ th.roles l) :
    (r = .granted ∨ r = .releasing → ∃ f ∈ th.calls, f.inFlight l = true) ∧
    (r = .resolving ∨ r = .dropped → ∃ f ∈ th.calls, f.resolves l = true) := by
  obtain h | h := List.mem_append.mp h
  · obtain ⟨f,hf,hm⟩ := List.mem_flatMap.mp h
    cases call_plays hm with
    | @acquire pc _ hpc =>
      refine ⟨fun hr => ⟨_, hf, ?_⟩, fun hr => ?_⟩
      · obtain rfl | rfl := hr
        · rcases pc with _ | _ | _ | _ | _ | ⟨_ | _⟩ | _ <;>
            simp_all [AcquirePc.roles, Call.inFlight]
        · simpa using acquire_role hpc
      · obtain rfl | rfl := hr <;> simpa using acquire_role hpc
    | release pc =>
      refine ⟨fun hr => ⟨_, hf, ?_⟩, fun hr => ?_⟩
      · cases pc <;> simp_all [ReleasePc.role, Call.inFlight]
      · have := release_role pc
        obtain hr | hr := hr <;> simp [hr] at this
    | resolve hstage =>
      refine ⟨?_, fun _ => ⟨_, hf, by simp [Call.resolves]⟩⟩
      intro hr
      obtain rfl | rfl := hstage <;> simp at hr
    | hold | load => simp
  · obtain ⟨read,rfl⟩ := mem_holdRoles h
    simp

theorem agent_role {s : Sys} {l A T : ℕ} {r : Role} {g : ℕ → Option (Agent × Role)}
    (ht : s.Tracks l g) (hgA : g A = some (.thread T, r)) : r ∈ (s.thread A T).roles l := by
  have := ht.agents A T
  rw [hgA] at this
  change (s.thread A T).roles l = _ at this
  rw [this]
  simp [slot]

theorem owner_knows_of_lock {es : List Event} {s : Sys} (hc : CalmRun es)
    (hrun : Sys.run es = some s) {lid A : ℕ} (hidle : s.inFlight lid = false)
    (hresolve : (s.client A).anyCall (Call.resolves lid) = false)
    (howner : (s.lockTable.info lid).owner = some A) :
    ((s.client A).lock lid).state = .free ∨ ((s.client A).lock lid).state = .locked ∨
      ((s.client A).lock lid).state = .releasing := by
  obtain ⟨g,ht,hg⟩ := calm_run hc hrun lid
  have hcalls : ∀ B T, ∀ f ∈ (s.thread B T).calls, f.inFlight lid = false := by
    intro B T f hf
    by_contra hfl
    rw [Sys.inFlight, sys_anyCall hf (Bool.not_eq_false _ ▸ hfl)] at hidle
    cases hidle
  obtain ⟨-,howns⟩ := (hg.owner A).mp howner
  have hfits := hg.fits A
  have hagent : ((s.view lid g).party A).agent = g A := rfl
  rw [Party.Fits, hagent] at hfits
  rw [hagent] at howns
  rcases hgA : g A with _ | ⟨T | ⟨B,T⟩,r⟩
  · rw [hgA] at howns
    exact Or.inl howns.1
  · rw [hgA] at howns hfits
    obtain ⟨hcall,hconflict⟩ := role_call (agent_role ht hgA)
    cases r with
    | granted | releasing =>
      obtain ⟨f,hf,hfl⟩ := hcall (by simp)
      rw [hcalls A T f hf] at hfl
      cases hfl
    | resolving | dropped =>
      obtain ⟨f,hf,hr⟩ := hconflict (by simp)
      rw [client_anyCall hf hr] at hresolve
      cases hresolve
    | holding _ | loading _ _ | leaving =>
      obtain hs | ⟨-,hs,-⟩ := hfits
      · exact Or.inr (Or.inl hs)
      · exact Or.inr (Or.inr hs)
    | asking | serving | refused | sleeping | released => cases howns
  · -- a revoke handler is inside the acquire RPC that caused the revoke
    rw [hgA] at hfits
    have hmark : ∃ p, (A, p) ∈ (s.thread B T).marks lid := by
      obtain rfl | rfl := hfits.1
      · exact ⟨_, (hg.releasing B T A).mpr hgA⟩
      · exact ⟨_, (hg.released B T A).mpr hgA⟩
    obtain ⟨p,hp⟩ := hmark
    obtain ⟨f,hf,hm⟩ := List.mem_flatMap.mp hp
    have hfl := hcalls B T f hf
    unfold Call.marks at hm
    split at hm
    · split_ifs at hm with hl
      · simp [Call.inFlight, hl] at hfl
      · cases hm
    · cases hm

/-- A client takes a lock again after it has been offline. -/
def takenAgain : List Event :=
  acquires 0 0 5 ++ releases 0 0 5 ++ [.disconnect 0, .client 0 1 .reconnect,
    .client 0 1 (.turn 0 0), .client 0 1 (.turn 0 0), .client 0 1 (.turn 0 0), .serve 0 1,
    .client 0 1 .wake, .client 0 1 (.turn 0 0), .client 0 1 (.turn 0 0)]

theorem owner_knows_taken_again : ∃ s, Sys.run takenAgain = some s ∧
    (s.lockTable.info 5).owner = some 0 ∧ (((s.client 0).lock 5).state = .free ∨
      ((s.client 0).lock 5).state = .locked ∨ ((s.client 0).lock 5).state = .releasing) := by
  obtain ⟨s,hrun,hidle,hresolve,howner⟩ := run_reaches
    (P := fun s => s.inFlight 5 = false ∧ (s.client 0).anyCall (Call.resolves 5) = false ∧
      (s.lockTable.info 5).owner = some 0)
    (show (Sys.run takenAgain).any _ = true by decide +kernel)
  exact ⟨s, hrun, howner, owner_knows_of_lock (by decide +kernel) hrun hidle hresolve howner⟩

/-- A client disconnects while its acquire request is on its way, throws the grant away, and
reconnects. -/
def grantThrownAway : List Event :=
  asks 0 0 5 ++ [.disconnect 0, .serve 0 0, .client 0 0 .wake, .client 0 1 .reconnect,
    .client 0 1 (.turn 0 0), .client 0 1 (.turn 0 0)]

theorem owner_unaware_of_lock : ∃ s, Sys.run grantThrownAway = some s ∧
    s.inFlight 5 = false ∧ (s.client 0).anyCall (Call.resolves 5) = false ∧
      (s.client 0).disconnected = false ∧ (s.lockTable.info 5).owner = some 0 ∧
      ((s.client 0).lock 5).state = .none :=
  run_reaches (by decide +kernel)

end DisconnectedYfs.YFS
