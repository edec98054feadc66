import DisconnectedYfs.YFSCopySteps
import DisconnectedYfs.YFSLockRuns

/-! When the extent server loses an extent. A flush without a cached copy is a removal; it can only
be one that an `unlink` asked for as long as every release finds the extent cached. -/
namespace DisconnectedYfs.YFS
open Std

/-- Client `A` has removed the file through `unlink`. -/
def Unlinked (es : List Event) (A l : ℕ) : Prop := ∃ T, .client A T (.unlinkRemove l) ∈ es

/-- A client disconnects only while quiet, and whoever runs `release_wo` has the extent cached, or
the server does not have it. -/
def Sys.cachedAtRelease (s : Sys) : Event → Bool
  | .disconnect A => s.quiet A
  | .client A T (.turn _ _) =>
    match (s.thread A T).calls with
    | .release lid .start :: _ => (s.client A).localExtent[lid]?.isSome || s.table[lid]?.isNone
    | _ => true
  | _ => true

abbrev CachedRun (es : List Event) : Prop :=
  TraceSystem.Meets Sys.step (fun s e => s.cachedAtRelease e = true) Sys.init es

/-- The owner has a cached lock and no copy of an extent that exists: a revoke would erase it. -/
def LockView.Parked (v : LockView) (A : ℕ) : Prop :=
  v.owner = some A ∧ (v.party A).agent = none ∧ (v.party A).copy = none ∧ v.extent ≠ none

theorem parked_partyStep {k : Kind} {p p' : Party} {x x' : Option FInfo}
    (h : PartyStep k p x p' x') (ho : p.Owns) (ha : p'.agent = none) (hc : p'.copy = none) :
    x' = x ∧ (k = .unlinked ∨ k = .left ∧ p.copy = none ∨ p.agent = none ∧ p.copy = none) := by
  cases h <;> simp_all [Party.Owns]

section
variable {v v' : LockView} {k : LockEvent} {C : ℕ}

/-- A client becomes the owner of such a lock only by releasing it, or by an `unlink`. -/
theorem parked_step (hg : Good v) (h : LockStep k v v') (hp : v'.Parked C) :
    v.Parked C ∨ k = .party C .unlinked ∨
      k = .party C .left ∧ (v.party C).copy = none ∧ v.extent ≠ none := by
  obtain ⟨howner,hagent,hcopy,hx⟩ := hp
  obtain ⟨howner',⟨j,rfl,hp⟩ | ⟨hagent',hcopy',hx'⟩⟩ := resting_step hg h howner (Or.inl hagent)
  · obtain ⟨hxx,h | ⟨h,h'⟩ | ⟨h,h'⟩⟩ :=
      parked_partyStep hp ((hg.owner C).mp howner') hagent hcopy
    · exact Or.inr (Or.inl (by rw [h]))
    · exact Or.inr (Or.inr ⟨by rw [h], h', hxx ▸ hx⟩)
    · exact Or.inl ⟨howner', h, h', hxx ▸ hx⟩
  · exact Or.inl ⟨howner', hagent'.trans hagent, hcopy'.trans hcopy, hx' ▸ hx⟩

theorem flushes_erases {cp : Option Entry} {x : Option FInfo} (hx : x ≠ none)
    (h : Flushes cp x none) : cp = none := by
  obtain ⟨h,-⟩ | ⟨e,-,-,h⟩ | ⟨e,f,-,-,h,-⟩ := h
  · exact h
  · exact absurd h.symm hx
  · cases h

theorem partyStep_erases {k : Kind} {p p' : Party} {x x' : Option FInfo}
    (h : PartyStep k p x p' x') (hx : x ≠ none) (hx' : x' = none) : k = .left ∧ p.copy = none := by
  cases h
  case flush hf =>
    subst hx'
    exact ⟨rfl, flushes_erases hx hf⟩
  all_goals exact absurd hx' hx

/-- Who erases an extent at the server. -/
theorem erasing_step (hg : Good v) (h : LockStep k v v') (hx : v.extent ≠ none)
    (hx' : v'.extent = none) :
    (∃ A, k = .party A .left ∧ (v.party A).copy = none) ∨
      ∃ o, k = .revoke o ∧ (v.party o).state = .free ∧ v.Parked o := by
  cases h with
  | @party _ A k p x hp =>
    obtain ⟨rfl,hcopy⟩ := partyStep_erases hp hx hx'
    exact Or.inl ⟨A, rfl, hcopy⟩
  | @revokeFree _ B T o cp x hm hp hf =>
    obtain rfl : x = none := hx'
    refine Or.inr ⟨o, rfl, by rw [hp], (hg.sent B T o (by simp [hm])).1, by rw [hp], ?_, hx⟩
    rw [hp]
    exact flushes_erases hx hf
  | _ => exact absurd hx' hx

end

section
variable {s : Sys} {e : Event} {A l : ℕ} {g : ℕ → Option (Agent × Role)}

/-- A release finds the extent cached. -/
theorem left_cached (hc : s.cachedAtRelease e = true) (hk : Accounts s e l (.party A .left))
    (hcopy : ((s.view l g).party A).copy = none) : (s.view l g).extent = none := by
  obtain ⟨T,m,rfl,rest,⟨a,b,rfl⟩,hcalls⟩ := hk
  have hcalls' : (s.thread A T).calls = .release l .start :: rest := hcalls
  have hcopy' : (s.client A).localExtent[l]? = none := hcopy
  change s.table[l]? = none
  simpa [Sys.cachedAtRelease, hcalls', hcopy'] using hc

theorem unlinked_mono {es : List Event} (h : Unlinked es A l) : Unlinked (es ++ [e]) A l := by
  obtain ⟨T,h⟩ := h
  exact ⟨T, List.mem_append_left _ h⟩

end

theorem cached_run {es : List Event} {s : Sys} (hc : CachedRun es) (hrun : Sys.run es = some s) :
    s.Sound ∧ ∀ l, ∃ g, s.Tracks l g ∧ Good (s.view l g) ∧
      ∀ A, (s.view l g).Parked A → Unlinked es A l := by
  refine lock_history (P := fun es l v => ∀ A, v.Parked A → Unlinked es A l) (fun _ _ h => h) ?_ ?_
    hc hrun
  · intro l A hp
    cases hp.1
  · intro es s e s' l g g' _ _ hg hP hCe _ _ _ hprog A hA
    obtain heq | ⟨k,hk,hls⟩ := hprog
    · rw [heq] at hA
      exact unlinked_mono (hP A hA)
    · obtain hp | rfl | ⟨rfl,hcopy,hx⟩ := parked_step hg hls hA
      · exact unlinked_mono (hP A hp)
      · obtain ⟨T,m,rfl,rfl⟩ := hk
        exact ⟨T, by simp⟩
      · exact absurd (left_cached hCe hk hcopy) hx

theorem erased_only_after_unlink {es : List Event} {e : Event} {s s' : Sys}
    (hc : CachedRun (es ++ [e])) (hrun : Sys.run es = some s) (h : s.step e = some s') {l : ℕ}
    (hx : s.table[l]? ≠ none) (hx' : s'.table[l]? = none) :
    ∃ A, s.flush? e = some (A, l) ∧ Unlinked es A l := by
  obtain ⟨hes,he⟩ := hc.append
  have hCe := (he s hrun).1
  obtain ⟨hsound,hlocks⟩ := cached_run hes hrun
  obtain ⟨g,ht,hg,hP⟩ := hlocks l
  obtain ⟨g',-,heq | ⟨k,hk,hls⟩⟩ := step_advances hsound ht hg h
  · have : s'.table[l]? = s.table[l]? := congrArg LockView.extent heq
    exact absurd (this ▸ hx') hx
  · obtain ⟨A,rfl,hcopy⟩ | ⟨o,rfl,hs,hp⟩ := erasing_step hg hls hx hx'
    · exact absurd (left_cached hCe hk hcopy) hx
    · obtain ⟨B,T,rest,rfl,hcalls⟩ := hk
      have hs' : ((s.client o).lock l).state = .free := hs
      exact ⟨o, by simp [Sys.flush?, hcalls, hs'], hP o hp⟩

/-- A file is written by one client, unlinked by another, and asked for again. -/
def unlinkedFile : List Event :=
  acquires 1 0 0x80000005 ++ reads 1 0 0x80000005 ++ writes 1 0 0x80000005 [2] ++
    releases 1 0 0x80000005 ++ asks 0 0 0x80000005 ++ steals 0 0 0x80000005 ++
    [.client 0 0 .wake] ++ reads 0 0 0x80000005 ++ [.client 0 0 .loadAttr,
      .client 0 0 (.callRelease 0x80000005 true), .client 0 0 (.turn 0 0),
      .client 0 0 (.unlinkRemove 0x80000005)] ++ asks 1 0 0x80000005 ++ [.serve 1 0]

theorem erased_after_unlink : ∃ s s', Sys.run unlinkedFile = some s ∧
    s.step (.revoke 1 0) = some s' ∧ s.table[0x80000005]? ≠ none ∧ s'.table[0x80000005]? = none ∧
      ∃ A, s.flush? (.revoke 1 0) = some (A, 0x80000005) ∧ Unlinked unlinkedFile A 0x80000005 := by
  obtain ⟨s,hrun,hx,hstep⟩ := run_reaches
    (P := fun s => s.table[0x80000005]? ≠ none ∧
      (s.step (.revoke 1 0)).any (fun s' => s'.table[0x80000005]?.isNone) = true)
    (show (Sys.run unlinkedFile).any _ = true by decide +kernel)
  rcases hs' : s.step (.revoke 1 0) with _ | s'
  · rw [hs'] at hstep
    cases hstep
  · rw [hs'] at hstep
    have hx' : s'.table[0x80000005]? = none := Option.isNone_iff_eq_none.mp hstep
    exact ⟨s, s', hrun, hs', hx, hx', erased_only_after_unlink (by decide +kernel) hrun hs' hx hx'⟩

/-- A clean copy is dropped when a stale lock comes back, the lock is cached again at once, and the
revoke that follows takes the missing copy for a removal. -/
def droppedCopy : List Event :=
  acquires 1 0 5 ++ reads 1 0 5 ++ writes 1 0 5 [2] ++ releases 1 0 5 ++ asks 0 0 5 ++
    steals 0 0 5 ++ [.client 0 0 .wake] ++ reads 0 0 5 ++ [.client 0 0 .loadAttr] ++
    releases 0 0 5 ++ [.disconnect 0, .client 0 1 .reconnect, .client 0 1 (.turn 0 0),
      .client 0 1 (.turn 0 0), .client 0 1 (.turn 0 0), .serve 0 1, .client 0 1 .wake,
      .client 0 1 (.turn 0 0), .client 0 1 (.turn 0 0)] ++ asks 1 0 5 ++ [.serve 1 0]

theorem erased_without_unlink : (∃ s, Sys.run droppedCopy = some s ∧ s.table[5]? ≠ none ∧
    s.flush? (.revoke 1 0) = some (0, 5) ∧
      (s.step (.revoke 1 0)).any (fun s' => s'.table[5]?.isNone) = true) ∧
    ∀ A l, ¬ Unlinked droppedCopy A l := by
  refine ⟨run_reaches (by decide +kernel), ?_⟩
  rintro A l ⟨T,hT⟩
  simp [droppedCopy, acquires, asks, reads, writes, releases, steals] at hT

end DisconnectedYfs.YFS
