import DisconnectedYfs.YFSCopySteps
import DisconnectedYfs.YFSVersionInvariant
import DisconnectedYfs.YFSLockRuns

/-! Which runs send no stale write: every put that a flush sends carries the version that the extent
server has. -/
namespace DisconnectedYfs.YFS
open Std

/-- A client disconnects only while quiet, the application reads an extent before it writes it in a
section, `unlink` removes no copy whose lock is in use again, and no revoke reaches a lock that is
still stale. -/
def Sys.careful (s : Sys) : Event → Bool
  | .disconnect A => s.quiet A
  | .client A T (.put lid _) => (s.thread A T).section? lid ≠ some false
  | .client A _ (.unlinkRemove lid) =>
    ((s.client A).lock lid).state ≠ .locked && ((s.client A).lock lid).state ≠ .releasing
  | .revoke B T =>
    match (s.thread B T).calls with
    | .acquire lid (.revoking o .sent) :: _ => !((s.client o).lock lid).stale
    | _ => true
  | _ => true

abbrev CarefulRun (es : List Event) : Prop :=
  TraceSystem.Meets Sys.step (fun s e => s.careful e = true) Sys.init es

theorem careful_accounts {s : Sys} {e : Event} {l : ℕ} {g : ℕ → Option (Agent × Role)}
    {k : LockEvent} (hc : s.careful e = true) (hk : Accounts s e l k) : k.careful (s.view l g) := by
  cases k with
  | party A k =>
    obtain ⟨T,m,rfl,hm⟩ := hk
    cases k with
    | wrote read buf =>
      obtain ⟨rfl,hsec⟩ := hm
      have hread : (s.thread A T).section? l ≠ some false := by simpa [Sys.careful] using hc
      have hsec' : (s.thread A T).section? l = some read := hsec
      rw [hsec'] at hread
      change read = true
      simpa using hread
    | unlinked =>
      obtain rfl := hm
      have hstate : ((s.client A).lock l).state ≠ .locked ∧
          ((s.client A).lock l).state ≠ .releasing := by simpa [Sys.careful] using hc
      exact hstate
    | _ => trivial
  | revoke o =>
    obtain ⟨B,T,rest,rfl,hcalls⟩ := hk
    have hstale : ((s.client o).lock l).stale = false := by simpa [Sys.careful, hcalls] using hc
    exact hstale
  | _ => trivial

theorem current_init : LockView.init.Current := by
  intro A
  constructor <;> simp [LockView.init, Party.Owns]

theorem careful_run {es : List Event} {s : Sys} (hc : CarefulRun es) (hrun : Sys.run es = some s)
    (l : ℕ) : ∃ g, s.Tracks l g ∧ Good (s.view l g) ∧ (s.view l g).Current :=
  (lock_invariant (P := LockView.Current) (D := fun k v => k.careful v) (fun _ _ h => h)
    (fun _ _ _ _ _ hc hk => careful_accounts hc hk) current_init
    (fun _ _ _ hg hcur hD hq hls => current_step hg hcur hD hls hq) hc hrun).2 l

section
variable {s : Sys} {A T lid : ℕ} {e : Event} {g : ℕ → Option (Agent × Role)}

/-- Who flushes is the owner, and its lock is not stale. -/
theorem flush_owner (ht : s.Tracks lid g) (hg : Good (s.view lid g))
    (h : s.flush? e = some (A, lid)) :
    ((s.view lid g).party A).Owns ∧ ((s.view lid g).party A).stale = false := by
  cases e with
  | client B T m =>
    obtain ⟨l,hl,hp⟩ := Option.map_eq_some_iff.mp h
    cases hp
    cases m with
    | turn a b =>
      simp only [Client.flushes] at hl
      split at hl
      · rename_i lid' rest hcalls
        split_ifs at hl with hs
        cases hl
        obtain ⟨hgA,-⟩ := agents_top (ht.agents A) hcalls (release_roles _ _)
        have hagent : ((s.view lid g).party A).agent = some (.thread T, .leaving) := hgA
        have hfits := hg.fits A
        rw [Party.Fits, hagent] at hfits
        obtain hst | ⟨hoff,-,hstale⟩ := hfits
        · have hst' : ((s.client A).lock lid).state = .locked := hst
          rw [hs] at hst'
          cases hst'
        · rw [Party.Owns, hagent]
          exact ⟨⟨hoff, hstale⟩, hstale⟩
      · cases hl
    | _ => cases hl
  | revoke B T =>
    simp only [Sys.flush?] at h
    split at h
    · rename_i lid' o rest hcalls
      split_ifs at h with hs
      cases h
      obtain ⟨hmark,-⟩ := revoking_marks hg hcalls
      have howns := (hg.owner A).mp (hg.sent B T A (by simp [hmark])).1
      refine ⟨howns, ?_⟩
      have hagent : ((s.view lid g).party A).agent = none := fits_idle (hg.fits A) (Or.inr hs)
      rw [Party.Owns, hagent] at howns
      exact howns.2.2
    · cases h
  | _ => cases h

end

/-- In runs along which copies stay current, what a flush sends has the server's version. -/
theorem flush_version {s : Sys} (hs : ∀ l, ∃ g, s.Tracks l g ∧ Good (s.view l g) ∧
    (s.view l g).Current)
    {e : Event} {A lid : ℕ} {c : Entry} {f : FInfo} (hf : s.flush? e = some (A, lid))
    (hcopy : (s.client A).localExtent[lid]? = some c) (hx : s.table[lid]? = some f) :
    c.attr.version = f.a.version := by
  obtain ⟨g,ht,hg,hcur⟩ := hs lid
  obtain ⟨howns,hstale⟩ := flush_owner ht hg hf
  exact (hcur A).version howns hstale c f hcopy hx

/-- In such runs no put is refused. -/
theorem extentServerUp_run {C : Sys → Event → Prop}
    (hcur : ∀ {es s}, TraceSystem.Meets Sys.step C Sys.init es → Sys.run es = some s →
      ∀ l, ∃ g, s.Tracks l g ∧ Good (s.view l g) ∧ (s.view l g).Current)
    {es : List Event} {s : Sys} (hc : TraceSystem.Meets Sys.step C Sys.init es)
    (hrun : Sys.run es = some s) : s.extentServerUp = true := by
  refine TraceSystem.Meets.history (I := fun _ s => s.extentServerUp = true) rfl ?_ hc hrun
  intro fs e r r' hfs hr hup _ hrr'
  refine step_extentServerUp hrr' hup ?_
  intro A lid hf hn
  obtain ⟨c,f,hcopy,-,hx,hne⟩ := cache_flush_eq_none.mp hn
  exact hne (flush_version (hcur hfs hr) hf hcopy hx)

theorem flush_sends_current_version {es : List Event} {s : Sys} (hc : CarefulRun es)
    (hrun : Sys.run es = some s) :
    s.extentServerUp = true ∧ ∀ e A lid c f, s.flush? e = some (A, lid) →
      (s.client A).localExtent[lid]? = some c → c.dirty = true → s.table[lid]? = some f →
      c.attr.version = f.a.version := by
  refine ⟨extentServerUp_run careful_run hc hrun, ?_⟩
  intro e A lid c f hf hcopy _ hx
  exact flush_version (careful_run hc hrun) hf hcopy hx

/-- A lock moves to a client that then writes, and is about to be revoked again; a third client
has gone offline. -/
def writtenTwice : List Event :=
  [.disconnect 2] ++ acquires 1 0 5 ++ reads 1 0 5 ++ writes 1 0 5 [2] ++ releases 1 0 5 ++
    asks 0 0 5 ++ steals 0 0 5 ++ [.client 0 0 .wake] ++ reads 0 0 5 ++ [.client 0 0 .loadAttr] ++
    writes 0 0 5 [3] ++ releases 0 0 5 ++ asks 1 0 5 ++ [.serve 1 0]

theorem flush_sends_version_written_twice : ∃ s c f, Sys.run writtenTwice = some s ∧
    s.extentServerUp = true ∧ s.flush? (.revoke 1 0) = some (0, 5) ∧
      (s.client 0).localExtent[5]? = some c ∧ c.dirty = true ∧ s.table[5]? = some f ∧
      c.attr.version = f.a.version := by
  obtain ⟨s,hrun,hf,hcopy,hx⟩ := run_reaches
    (P := fun s => s.flush? (.revoke 1 0) = some (0, 5) ∧
      (s.client 0).localExtent[5]?.any Entry.dirty = true ∧ s.table[5]?.isSome = true)
    (show (Sys.run writtenTwice).any _ = true by decide +kernel)
  obtain ⟨f,hx⟩ := Option.isSome_iff_exists.mp hx
  rcases hc : (s.client 0).localExtent[5]? with _ | c
  · rw [hc] at hcopy
    cases hcopy
  · rw [hc] at hcopy
    obtain ⟨hup,hversion⟩ := flush_sends_current_version (by decide +kernel) hrun
    exact ⟨s, c, f, hrun, hup, hf, hc, hcopy, hx, hversion _ 0 5 c f hf hc hcopy hx⟩

/-- A client that was offline gets a stale lock granted, and the revoke that overtakes the grant
clears the mark, so its old copy is sent without a comparison. -/
def overtakenGrant : List Event :=
  acquires 0 0 5 ++ reads 0 0 5 ++ writes 0 0 5 [1] ++ releases 0 0 5 ++ [.disconnect 0] ++
    acquires 1 0 5 ++ reads 1 0 5 ++ writes 1 0 5 [2] ++ releases 1 0 5 ++
    [.client 0 1 .reconnect, .client 0 1 (.turn 0 0), .client 0 1 (.turn 0 0),
      .client 0 1 (.turn 0 0)] ++ steals 0 1 5 ++ asks 1 0 5 ++
    [.serve 1 0, .revoke 1 0, .client 0 1 .wake]

theorem flush_sends_old_version : ∃ s, Sys.run overtakenGrant = some s ∧
    s.flush? (.client 0 1 (.turn 0 0)) = some (0, 5) ∧
      (s.client 0).localExtent[5]?.map (fun c : Entry => (c.dirty, c.attr.version)) =
        some (true, 0) ∧
      s.table[5]?.map (fun f : FInfo => f.a.version) = some 1 ∧
      (s.step (.client 0 1 (.turn 0 0))).any (fun s' => !s'.extentServerUp) = true :=
  run_reaches (by decide +kernel)

end DisconnectedYfs.YFS
