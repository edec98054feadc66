import DisconnectedYfs.YFSCopySteps
import DisconnectedYfs.YFSLockRuns

/-! When equal versions tell that nothing has happened to an extent: the comparison that decides
about a conflict uses the version of a cached copy as evidence about the extent's whole history. -/
namespace DisconnectedYfs.YFS
open Std

/-- Nobody has put or removed the extent at the server since client `A` loaded its copy, or made it
by a `put` without having one. -/
def untouched (A l : ℕ) (es : List Event) : Bool :=
  TraceSystem.observed Sys.step (fun s e s' same =>
    if (s.client A).localExtent[l]? = none ∨ s.load? e = some (A, l) then true
    else same && s'.table[l]? = s.table[l]?) Sys.init true es

/-- A client other than `B` has such a copy of the extent. -/
def Sys.otherCopy (s : Sys) (B lid : ℕ) (p : Entry → Bool) : Bool :=
  s.clients.toList.any (fun q => q.1 ≠ B && q.2.localExtent[lid]?.any p)

/-- No flush removes an extent while another client has a copy of version 0, none creates an extent
while another client has a copy of a later version, and no version wraps around. -/
def Sys.traceable (s : Sys) (e : Event) : Bool :=
  match s.flush? e with
  | none => true
  | some (B, lid) =>
    match (s.client B).localExtent[lid]?, s.table[lid]? with
    | none, none => true
    | none, some _ => !s.otherCopy B lid (fun c => c.attr.version = 0)
    | some c, none => !c.dirty || !s.otherCopy B lid (fun c => c.attr.version ≠ 0)
    | some c, some f => !c.dirty || f.a.version+1 ≠ 0

abbrev TraceableRun (es : List Event) : Prop :=
  TraceSystem.Meets Sys.step (fun s e => s.traceable e = true) Sys.init es

/-- A copy's version says when the copy was made: it is that of the server's extent only if the
extent is untouched. -/
structure Dated (cp : Option Entry) (x : Option FInfo) (same : Bool) : Prop where
  version : ∀ f, x = some f → f.a.version ≠ 0
  older : ∀ c f, cp = some c → x = some f → c.attr.version ≠ 0 →
    c.attr.version ≤ f.a.version ∧ (same = false → c.attr.version < f.a.version)
  absent : ∀ c, cp = some c → x = none → c.attr.version = 0 → same = true

section
variable {cp cp' : Option Entry} {x x' : Option FInfo} {same : Bool} {s s' : Sys} {e : Event}
  {A B l : ℕ}

theorem dated_none (hv : ∀ f, x = some f → f.a.version ≠ 0) : Dated none x same :=
  ⟨hv, by simp, by simp⟩

/-- A copy that has just been made. -/
theorem dated_fresh {c : Entry} (hv : ∀ f, x = some f → f.a.version ≠ 0)
    (hc : ∀ f, x = some f → c.attr.version ≠ 0 → c.attr.version ≤ f.a.version) :
    Dated (some c) x true := by
  refine ⟨hv, ?_, fun _ _ _ _ => rfl⟩
  intro c' f hc' hx h0
  cases hc'
  exact ⟨hc f hx h0, fun h => by cases h⟩

/-- Watching an extent that stays as it is, or starting to watch it again. -/
theorem dated_watch (h : Dated cp x same) (b : Bool) (hb : same = true → b = true) :
    Dated cp x b := by
  refine ⟨h.version, ?_, ?_⟩
  · intro c f hc hx h0
    obtain ⟨h1,h2⟩ := h.older c f hc hx h0
    refine ⟨h1, fun hf => h2 ?_⟩
    by_contra hs
    rw [hb (Bool.not_eq_false _ ▸ hs)] at hf
    cases hf
  · intro c hc hx h0
    exact hb (h.absent c hc hx h0)

theorem dated_keep {c c' : Entry} (h : Dated (some c) x same)
    (hv : c'.attr.version = c.attr.version) : Dated (some c') x same := by
  refine ⟨h.version, ?_, ?_⟩
  · intro c₁ f hc₁ hx h0
    cases hc₁
    rw [hv] at h0 ⊢
    exact h.older c f rfl hx h0
  · intro c₁ hc₁ hx h0
    cases hc₁
    rw [hv] at h0
    exact h.absent c rfl hx h0

theorem version_lt_succ {v : UInt32} (h : v+1 ≠ 0) : v < v+1 := by
  have h0 : (v+1).toNat ≠ 0 := by
    intro hn
    exact h (UInt32.toNat_inj.mp hn)
  rw [UInt32.lt_iff_toNat_lt]
  rw [UInt32.toNat_add] at h0 ⊢
  have := v.toNat_lt
  simp only [UInt32.toNat_one] at h0 ⊢
  omega

/-- A flush leaves no extent of version 0. -/
theorem flushes_version (hf : Flushes cp x x') (hv : ∀ f, x = some f → f.a.version ≠ 0)
    (hwrap : ∀ c f, cp = some c → c.dirty = true → x = some f → f.a.version+1 ≠ 0) :
    ∀ f, x' = some f → f.a.version ≠ 0 := by
  intro f hx'
  obtain ⟨-,rfl⟩ | ⟨c,-,-,rfl⟩ | ⟨c,f',hc,hd,rfl,-,⟨-,h1⟩ | ⟨g,hg,-,h1⟩⟩ := hf
  · cases hx'
  · exact hv f hx'
  · cases hx'
    rw [h1]
    decide
  · cases hx'
    rw [h1]
    exact hwrap c g hc hd hg

/-- Another client's flush dates the copy that is there. -/
theorem dated_flush {c : Entry} (h : Dated (some c) x same) (hf : Flushes cp x x')
    (hremove : cp = none → x ≠ none → c.attr.version ≠ 0)
    (hcreate : ∀ d, cp = some d → d.dirty = true → x = none → c.attr.version = 0)
    (hwrap : ∀ d f, cp = some d → d.dirty = true → x = some f → f.a.version+1 ≠ 0)
    {b : Bool} (hb : x' = x → b = same) : Dated (some c) x' b := by
  have hv := flushes_version hf h.version hwrap
  obtain ⟨hn,rfl⟩ | ⟨d,-,-,rfl⟩ | ⟨d,f',hd,hdirty,rfl,-,⟨hx,-⟩ | ⟨f,hx,-,h1⟩⟩ := hf
  · by_cases hx : x = none
    · rw [hb hx.symm]
      exact hx ▸ h
    · refine ⟨hv, by simp, ?_⟩
      intro c' hc' _ h0
      cases hc'
      exact absurd h0 (hremove hn hx)
  · rw [hb rfl]
    exact h
  · refine ⟨hv, ?_, by simp⟩
    intro c' g hc' _ h0
    cases hc'
    exact absurd (hcreate d hd hdirty hx) h0
  · refine ⟨hv, ?_, by simp⟩
    intro c' g hc' hg h0
    cases hc'
    cases hg
    have hle := (h.older c f rfl hx h0).1
    have hlt := version_lt_succ (hwrap d f hd hdirty hx)
    rw [h1]
    have := UInt32.lt_of_le_of_lt hle hlt
    exact ⟨UInt32.le_of_lt this, fun _ => this⟩

theorem otherCopy_of {p : Entry → Bool} {c : Entry} (hA : B ≠ A)
    (hc : (s.client A).localExtent[l]? = some c) (hp : p c = true) : s.otherCopy B l p = true := by
  unfold Sys.client at hc
  rcases hA' : s.clients[A]? with _ | cl
  · rw [hA'] at hc
    simp at hc
  · rw [hA'] at hc
    refine List.any_eq_true.mpr
      ⟨(A, cl), ExtTreeMap.mem_toList_iff_getElem?_eq_some.mpr hA', ?_⟩
    have hc' : cl.localExtent[l]? = some c := hc
    simp [hc', hp, Ne.symm hA]

theorem traceable_wrap (ht : s.traceable e = true) (hf : s.flush? e = some (B, l)) (d : Entry)
    (f : FInfo) (hd : (s.client B).localExtent[l]? = some d) (hdirty : d.dirty = true)
    (hx : s.table[l]? = some f) : f.a.version+1 ≠ 0 := by
  simpa [Sys.traceable, hf, hd, hx, hdirty] using ht

theorem traceable_remove {c : Entry} (ht : s.traceable e = true) (hf : s.flush? e = some (B, l))
    (hA : B ≠ A) (hc : (s.client A).localExtent[l]? = some c)
    (hd : (s.client B).localExtent[l]? = none) (hx : s.table[l]? ≠ none) : c.attr.version ≠ 0 := by
  obtain ⟨f,hx⟩ := Option.ne_none_iff_exists'.mp hx
  intro h0
  have hother := otherCopy_of (p := fun c => c.attr.version = 0) hA hc (by simpa using h0)
  simp only [Sys.traceable, hf, hd, hx, hother] at ht
  cases ht

theorem traceable_create {c : Entry} (ht : s.traceable e = true) (hf : s.flush? e = some (B, l))
    (hA : B ≠ A) (hc : (s.client A).localExtent[l]? = some c) (d : Entry)
    (hd : (s.client B).localExtent[l]? = some d) (hdirty : d.dirty = true)
    (hx : s.table[l]? = none) : c.attr.version = 0 := by
  by_contra h0
  have hother := otherCopy_of (p := fun c => c.attr.version ≠ 0) hA hc (by simpa using h0)
  simp only [Sys.traceable, hf, hd, hx, hdirty, hother] at ht
  cases ht

/-- A step dates client `A`'s copy anew, and no other copy of it becomes undated. -/
theorem dated_step (h : s.step e = some s') (ht : s.traceable e = true)
    (hd : Dated (s.client A).localExtent[l]? s.table[l]? same) :
    Dated (s'.client A).localExtent[l]? s'.table[l]?
      (if (s.client A).localExtent[l]? = none ∨ s.load? e = some (A, l) then true
        else same && s'.table[l]? = s.table[l]?) := by
  -- it is enough to watch the extent through the step
  have hwatch : ∀ {cp x}, Dated cp x (same && s'.table[l]? = s.table[l]?) → Dated cp x
      (if (s.client A).localExtent[l]? = none ∨ s.load? e = some (A, l) then true
        else same && s'.table[l]? = s.table[l]?) := by
    intro cp x h
    refine dated_watch h _ (fun hb => ?_)
    rw [hb, ite_self]
  obtain hc | ⟨B,hBA,hf,hcopy,hfl⟩ := step_copies h A l
  · unfold Sys.Copies at hc
    generalize hcp : (s.client A).localExtent[l]? = cp at *
    generalize hcp' : (s'.client A).localExtent[l]? = cp' at *
    generalize hx : s.table[l]? = x at *
    generalize hx' : s'.table[l]? = x' at *
    cases hc with
    | same => exact hwatch (by simpa using hd)
    | drop => exact dated_none hd.version
    | keep hv => exact hwatch (by simpa using dated_keep hd hv)
    | create hv =>
      rw [if_pos (Or.inl rfl)]
      exact dated_fresh hd.version (fun _ _ h0 => absurd hv h0)
    | load hl hv =>
      rw [if_pos (Or.inr hl)]
      refine dated_fresh hd.version ?_
      intro f hf _
      cases hf
      rw [hv]
      exact UInt32.le_refl _
    | flush hfl hf =>
      exact dated_none (flushes_version hf hd.version
        (fun d f hd' hdirty hx' => traceable_wrap ht hfl d f (hcp.trans hd') hdirty
          (hx.trans hx')))
  · rw [hcopy]
    have hwrap := traceable_wrap ht hf
    rcases hc : (s.client A).localExtent[l]? with _ | c
    · exact dated_none (flushes_version hfl hd.version hwrap)
    · rw [hc] at hd hwatch
      refine hwatch (dated_flush hd hfl (traceable_remove ht hf hBA hc)
        (traceable_create ht hf hBA hc) hwrap ?_)
      intro hx
      simp [hx]

end

theorem dated_run {es : List Event} {s : Sys} (hc : TraceableRun es) (hrun : Sys.run es = some s)
    (A l : ℕ) : Dated (s.client A).localExtent[l]? s.table[l]? (untouched A l es) := by
  refine TraceSystem.Meets.history (I := fun es s =>
    Dated (s.client A).localExtent[l]? s.table[l]? (untouched A l es)) ?_ ?_ hc hrun
  · exact dated_none (fun _ h => by cases h)
  · intro fs e r r' _ hr hd ht hrr'
    unfold untouched
    rw [TraceSystem.observed_snoc hr hrr']
    exact dated_step hrr' ht hd

/-- The comparison answers, and answers true only for an untouched extent. -/
theorem compareVersion_dated {c : Entry} {t : Table} {l : ℕ} {same : Bool}
    (hd : Dated (some c) t[l]? same) : compareVersion c t l ≠ none ∧
      (compareVersion c t l = some true → same = true) := by
  unfold compareVersion Table.getattr
  by_cases h0 : c.attr.version = 0
  · rcases hx : t[l]? with _ | f
    · simp [hd.absent c rfl hx h0]
    · have hv := hd.version f hx
      simp [h0, hv]
  · rcases hx : t[l]? with _ | f
    · simp [h0]
    · obtain ⟨hle,hlt⟩ := hd.older c f rfl hx h0
      simp only [Option.map_some, hle, if_true]
      refine ⟨by simp, ?_⟩
      intro heq
      have heq' : f.a.version = c.attr.version := by simpa using heq
      by_contra hs
      have := hlt (Bool.not_eq_true _ ▸ hs)
      rw [heq'] at this
      exact UInt32.lt_irrefl _ this

/-- `lock_acquired(l)`, run by thread `T` of client `A` next, compares the version of the dirty
copy `c`. -/
def Sys.compares (s : Sys) (A T l : ℕ) (c : Entry) : Prop :=
  (s.thread A T).calls.head? = some (.acquire l (.reply .ok)) ∧
    ((s.client A).lock l).stale = true ∧ (s.client A).localExtent[l]? = some c ∧ c.dirty = true

theorem compare_version_sound {es : List Event} {s : Sys} (hc : TraceableRun es)
    (hrun : Sys.run es = some s) {A T l : ℕ} {c : Entry} (h : s.compares A T l c) :
    compareVersion c s.table l ≠ none ∧
      (compareVersion c s.table l = some true → untouched A l es = true) := by
  obtain ⟨-,-,hcopy,-⟩ := h
  apply compareVersion_dated
  rw [← hcopy]
  exact dated_run hc hrun A l

/-- The thread that reconnects, up to the acquire request for its one cached lock. -/
def reconnects (A T : ℕ) : List Event :=
  [.client A T .reconnect, .client A T (.turn 0 0), .client A T (.turn 0 0),
    .client A T (.turn 0 0)]

/-- A client changes an extent that it has loaded, goes offline, and comes back before anybody else
has used it. -/
def keptOffline : List Event :=
  acquires 1 0 5 ++ reads 1 0 5 ++ writes 1 0 5 [2] ++ releases 1 0 5 ++ asks 0 0 5 ++
    steals 0 0 5 ++ [.client 0 0 .wake] ++ reads 0 0 5 ++ [.client 0 0 .loadAttr] ++
    writes 0 0 5 [3] ++ releases 0 0 5 ++ [.disconnect 0] ++ reconnects 0 1 ++ [.serve 0 1]

theorem compare_version_kept_offline : ∃ s c, Sys.run keptOffline = some s ∧
    s.compares 0 1 5 c ∧ compareVersion c s.table 5 = some true ∧
      untouched 0 5 keptOffline = true := by
  obtain ⟨s,hrun,h1,h2,h3⟩ := run_reaches (P := fun s =>
    (s.thread 0 1).calls.head? = some (.acquire 5 (.reply .ok)) ∧
      ((s.client 0).lock 5).stale = true ∧ (s.client 0).localExtent[5]?.any (fun c =>
        c.dirty && compareVersion c s.table 5 = some true) = true)
    (show (Sys.run keptOffline).any _ = true by decide +kernel)
  obtain ⟨c,hc,h⟩ := (Option.any_eq_true _ _).mp h3
  simp only [Bool.and_eq_true, decide_eq_true_eq] at h
  have hcmp : s.compares 0 1 5 c := ⟨h1, h2, hc, h.1⟩
  exact ⟨s, c, hrun, hcmp, h.2, (compare_version_sound (by decide +kernel) hrun hcmp).2 h.2⟩

/-- A file is loaded, changed and kept offline by client 0. Client 1 removes it at the server, and
client 2 creates it again, which makes its version what it was. -/
def createdAgain : List Event :=
  acquires 1 0 0x80000005 ++ reads 1 0 0x80000005 ++ writes 1 0 0x80000005 [2] ++
    releases 1 0 0x80000005 ++ asks 0 0 0x80000005 ++ steals 0 0 0x80000005 ++
    [.client 0 0 .wake] ++ reads 0 0 0x80000005 ++ [.client 0 0 .loadAttr] ++
    writes 0 0 0x80000005 [3] ++ releases 0 0 0x80000005 ++ [.disconnect 0] ++
    acquires 1 0 0x80000005 ++ reads 1 0 0x80000005 ++ [.client 1 0 .loadAttr,
      .client 1 0 (.callRelease 0x80000005 true), .client 1 0 (.turn 0 0),
      .client 1 0 (.unlinkRemove 0x80000005)] ++ asks 2 0 0x80000005 ++ steals 2 0 0x80000005 ++
    [.client 2 0 .wake] ++ reads 2 0 0x80000005 ++ writes 2 0 0x80000005 [4] ++
    releases 2 0 0x80000005 ++ reconnects 0 1 ++ steals 0 1 0x80000005

theorem compare_version_created_again : ∃ s c, Sys.run createdAgain = some s ∧
    s.compares 0 1 0x80000005 c ∧ (s.step (.client 0 1 .wake)).isSome = true ∧
      compareVersion c s.table 0x80000005 = some true ∧
      untouched 0 0x80000005 createdAgain = false := by
  obtain ⟨s,hrun,h1,h2,h3,h4⟩ := run_reaches (P := fun s =>
    (s.thread 0 1).calls.head? = some (.acquire 0x80000005 (.reply .ok)) ∧
      ((s.client 0).lock 0x80000005).stale = true ∧
      (s.step (.client 0 1 .wake)).isSome = true ∧
      (s.client 0).localExtent[0x80000005]?.any (fun c =>
        c.dirty && compareVersion c s.table 0x80000005 = some true) = true)
    (show (Sys.run createdAgain).any _ = true by decide +kernel)
  obtain ⟨c,hc,h⟩ := (Option.any_eq_true _ _).mp h4
  simp only [Bool.and_eq_true, decide_eq_true_eq] at h
  exact ⟨s, c, hrun, ⟨h1, h2, hc, h.1⟩, h3, h.2, by decide +kernel⟩

end DisconnectedYfs.YFS
