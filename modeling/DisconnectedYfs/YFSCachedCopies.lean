import DisconnectedYfs.YFSCoherence

/-! Cached copies while no client disconnects, whatever the application does with the extents whose
locks it holds: only the owner of a lock has a copy of its extent, and what the extent holds is
that copy or else the server's. -/
namespace DisconnectedYfs.YFS
open Std

/-- Waiting for the lock, or with nothing left to flush. -/
def Role.Bare (r : Role) : Prop :=
  r = .asking ∨ r = .serving ∨ r = .refused ∨ r = .sleeping ∨ r = .granted ∨ r = .releasing ∨
    r = .released

structure Party.Bound (p : Party) (x : Option FInfo) : Prop where
  kept : p.copy ≠ none → p.Owns
  bare : ∀ a r, p.agent = some (a, r) → r.Bare → p.copy = none
  clean : ∀ e, p.copy = some e → e.dirty = false → x.map FInfo.buf = some e.extent
  loading : ∀ a read buf, p.agent = some (a, .loading read buf) →
    p.copy = none ∧ x.map FInfo.buf = some buf

def LockView.Bound (v : LockView) : Prop := ∀ A, (v.party A).Bound v.extent

/-- What the extent holds: the owner's copy, else what the server has. -/
def LockView.content (v : LockView) : Option Str :=
  match v.owner.bind (fun A => (v.party A).copy) with
  | some e => some e.extent
  | none => v.extent.map FInfo.buf

/-- The owner has no copy and would erase the extent by giving the lock back. -/
def LockView.Exposed (v : LockView) : Prop :=
  ∃ A, v.owner = some A ∧ (v.party A).copy = none ∧
    ((v.party A).agent = none ∨ ∃ T, (v.party A).agent = some (.thread T, .leaving))

section
variable {v v' : LockView} {k : LockEvent} {p p' : Party} {x x' : Option FInfo}

/-- The extent of a lock that others own may change. -/
theorem bound_of_not_owns (h : p.Bound x) (ho : ¬ p.Owns)
    (hon : p.offline = false ∧ p.stale = false) : p.Bound x' := by
  have hcopy : p.copy = none := by
    by_contra hc
    exact ho (h.kept hc)
  refine ⟨h.kept, h.bare, by simp [hcopy], ?_⟩
  intro a read buf ha
  exact absurd (show p.Owns by simp [Party.Owns, ha, hon]) ho

theorem bound_partyStep {k : Kind} (h : PartyStep k p x p' x') (hb : p.Bound x)
    (hon : p.offline = false ∧ p.stale = false) (hk : k ≠ .resolve) : p'.Bound x' := by
  obtain ⟨hkept,hbare,hclean,hload⟩ := hb
  obtain ⟨hoff,hst⟩ := hon
  cases h
  case take hr | grant hr | grantRevoked hr =>
    obtain ⟨-,rfl⟩ | ⟨-,rfl⟩ := hr <;> constructor <;> simp_all [Party.Owns, Role.Bare]
  case grantStale | conflict | forget => cases hst
  case reconnect => cases hoff
  case drop | resolved | touch | fetch | probed | copy => exact absurd rfl hk
  case loaded hd hb hv =>
    have := (hload _ _ _ rfl).2
    constructor <;> simp_all [Party.Owns, Role.Bare]
  case read hsame =>
    obtain ⟨hd,hb,-⟩ := hsame
    constructor <;> simp_all [Party.Owns, Role.Bare]
  all_goals constructor <;> simp_all [Party.Owns, Role.Bare]

theorem bound_setParty {A : ℕ} (hb : v.Bound) (hon : v.Online) (hp : p.Bound x)
    (hx : x = v.extent ∨ ∀ B, B ≠ A → ¬ (v.party B).Owns) (B : ℕ) :
    ((v.setParty A p).party B).Bound x := by
  simp only [setParty_party]
  split_ifs with hB
  · exact hp
  · obtain rfl | hx := hx
    · exact hb B
    · exact bound_of_not_owns (hb B) (hx B hB) (hon B)

/-- Who waits for a lock, or has given it back, has no copy of the extent. -/
theorem bound_bare {A : ℕ} {a : Agent} {q r : Role} {s : LState} {g : Option (Agent × Role)}
    (hb : (v.party A).Bound v.extent) (ha : (v.party A).agent = some (a, q)) (hq : q.Bare)
    (hg : g = none ∨ g = some (a, r) ∧ r.Bare) :
    Party.Bound { v.party A with state := s, agent := g } v.extent := by
  have hcopy := hb.bare a q ha hq
  refine ⟨by simp [hcopy], fun _ _ _ _ => hcopy, by simp [hcopy], ?_⟩
  intro a' read buf ha'
  obtain rfl | ⟨rfl,hr⟩ := hg
  · cases ha'
  · simp only [Option.some.injEq, Prod.mk.injEq] at ha'
    rw [ha'.2] at hr
    simp [Role.Bare] at hr

/-- The steps of a lock in a run without disconnection. -/
def LockEvent.Connected (k : LockEvent) : Prop :=
  (∀ A, k ≠ .disconnect A) ∧ ∀ A, k ≠ .party A .resolve

theorem bound_told {A : ℕ} (hb : (v.party A).Bound v.extent) (hf : (v.party A).Fits)
    (ho : (v.party A).Owns)
    (hs : (v.party A).state = .acquiring ∨ (v.party A).state = .waiting ∨
      (v.party A).state = .locked) :
    Party.Bound { v.party A with state := .releasing, stale := false } v.extent :=
  ⟨fun _ => (party_told hf ho hs).2.1, hb.bare, hb.clean, hb.loading⟩

theorem bound_retried {A : ℕ} {s : LState} (hb : (v.party A).Bound v.extent)
    (hf : (v.party A).Fits) (hd : 0 < (v.party A).due)
    (hs : (v.party A).state = .acquiring ∧ s = .waiting ∨
      (v.party A).state = .waiting ∧ s = .acquiring) :
    Party.Bound { v.party A with state := s } v.extent :=
  ⟨fun hc => (party_retried hf hd hs).2.1.mpr (hb.kept hc), hb.bare, hb.clean, hb.loading⟩

/-- The request behind a revoke is refused when the revoke is answered. -/
theorem bound_answered {B T : ℕ} (hb : v.Bound) (hon : v.Online)
    (hB : (v.party B).agent = some (.thread T, .serving)) :
    ((v.setAgent B (some (.thread T, .refused))).setMark B T []).Bound :=
  bound_setParty hb hon
    (bound_bare (hb B) hB (by simp [Role.Bare]) (Or.inr ⟨rfl, by simp [Role.Bare]⟩)) (Or.inl rfl)

theorem bound_step (hg : Good v) (hon : v.Online) (hb : v.Bound) (hk : k.Connected)
    (h : LockStep k v v') : v'.Bound := by
  have hset : ∀ A p, Party.Bound p v.extent → ∀ B, ((v.setParty A p).party B).Bound v.extent :=
    fun A p hp => bound_setParty hb hon hp (Or.inl rfl)
  cases h with
  | @party _ A k p x hp =>
    have hkind : k ≠ .resolve := by
      rintro rfl
      exact hk.2 A rfl
    refine bound_setParty hb hon (bound_partyStep hp (hb A) (hon A) hkind) ?_
    obtain hx | ho := partyStep_extent hp
    · exact Or.inl hx
    · exact Or.inr (others_not_own hg ((hg.owner A).mpr ho))
  | @grant _ A T ha ho =>
    exact hset A _ (bound_bare (hb A) ha (by simp [Role.Bare]) (Or.inr ⟨rfl, by simp [Role.Bare]⟩))
  | @wait _ A T o ha ho hw =>
    exact hset A _ (bound_bare (hb A) ha (by simp [Role.Bare]) (Or.inr ⟨rfl, by simp [Role.Bare]⟩))
  | @firstWait _ A T o ha ho hw =>
    exact hset A _ (bound_bare (hb A) ha (by simp [Role.Bare]) (Or.inr ⟨rfl, by simp [Role.Bare]⟩))
  | @revokeBusy _ B T o hm hs =>
    have hmem : (o, Phase.sent) ∈ v.mark B T := by simp [hm]
    have hB := (hg.marked B T o .sent hmem).2
    have ho := (hg.owner o).mp (hg.sent B T o hmem).1
    have hstep := hset o _ (bound_told (hb o) (hg.fits o) ho hs)
    refine bound_answered hstep ?_ ?_
    · intro C
      simp only [setParty_party]
      split_ifs
      · exact ⟨(hon o).1, rfl⟩
      · exact hon C
    · rw [setParty_party, if_neg (mark_ne hg hmem).symm]
      exact hB
  | @revokeFree _ B T o cp x hm ho hx =>
    have hmem : (o, Phase.sent) ∈ v.mark B T := by simp [hm]
    refine bound_setParty hb hon ?_ (Or.inr (others_not_own hg (hg.sent B T o hmem).1))
    constructor <;> simp
  | @release _ A T ha ho =>
    exact hset A _ (bound_bare (hb A) ha (by simp [Role.Bare]) (Or.inr ⟨rfl, by simp [Role.Bare]⟩))
  | @handlerRelease _ B T o ha ho =>
    exact hset o _ (bound_bare (hb o) ha (by simp [Role.Bare]) (Or.inr ⟨rfl, by simp [Role.Bare]⟩))
  | @revoked _ B T o ha hB =>
    have hmem := (hg.released B T o).mpr ha
    have hstep := hset o _ (bound_bare (r := .released) (s := .none) (hb o) ha
      (by simp [Role.Bare]) (Or.inl rfl))
    refine bound_answered hstep ?_ ?_
    · intro C
      simp only [setParty_party]
      split_ifs
      · exact hon o
      · exact hon C
    · rw [setParty_party, if_neg (mark_ne hg hmem).symm]
      exact hB
  | @retry _ B s hp hs =>
    have hd := hg.due B
    exact hset B _ (bound_retried (hb B) (hg.fits B) (by omega) hs)
  | @disconnect _ A ho => exact absurd rfl (hk.1 A)
  | @disconnectOther _ A ho => exact absurd rfl (hk.1 A)

theorem content_of_copy {A : ℕ} {e : Entry} (ho : v.owner = some A)
    (hc : (v.party A).copy = some e) : v.content = some e.extent := by
  simp [LockView.content, ho, hc]

theorem content_of_no_copy (h : ∀ A, v.owner = some A → (v.party A).copy = none) :
    v.content = v.extent.map FInfo.buf := by
  rcases ho : v.owner with _ | A
  · simp [LockView.content, ho]
  · simp [LockView.content, ho, h A ho]

theorem content_congr (ho : v'.owner = v.owner) (hx : v'.extent = v.extent)
    (hc : ∀ A, v.owner = some A → (v'.party A).copy = (v.party A).copy) :
    v'.content = v.content := by
  unfold LockView.content
  rw [ho, hx]
  rcases h : v.owner with _ | A
  · rfl
  · simp [hc A h]

/-- A flush keeps what the extent holds, unless there is no copy. -/
theorem flushes_content (hf : Flushes p.copy x x') (hb : p.Bound x) :
    (p.copy = none ∧ x' = none) ∨
      ∃ e, p.copy = some e ∧ x'.map FInfo.buf = some e.extent := by
  obtain ⟨hn,rfl⟩ | ⟨e,he,hd,rfl⟩ | ⟨e,f,he,hd,rfl,hb,-⟩ := hf
  · exact Or.inl ⟨hn, rfl⟩
  · exact Or.inr ⟨e, he, hb.clean e he hd⟩
  · exact Or.inr ⟨e, he, by rw [← hb]; rfl⟩

/-- What one step does to the extent: nothing, or the application writes it, or removes its copy,
or a lock is given back without a copy. -/
theorem content_step (hg : Good v) (hon : v.Online) (hb : v.Bound) (hk : k.Connected)
    (h : LockStep k v v') :
    v'.content = v.content ∨
    (∃ A read buf, k = .party A (.wrote read buf) ∧ v'.content = some buf) ∨
    (∃ A, k = .party A .unlinked) ∨ (v.Exposed ∧ v'.content = none) := by
  cases h with
  | @party _ A k p x hp =>
    by_cases hA : v.owner = some A
    · have howns := (hg.owner A).mp hA
      have hcontent : ∀ e, p.copy = some e →
          ({ v.setParty A p with extent := x } : LockView).content = some e.extent := by
        intro e he
        refine content_of_copy (v := { v.setParty A p with extent := x }) (A := A) hA ?_
        simp [he]
      have hnone : p.copy = none →
          ({ v.setParty A p with extent := x } : LockView).content = x.map FInfo.buf := by
        intro hn
        apply content_of_no_copy
        intro B hB
        obtain rfl : A = B := Option.some.inj (hA.symm.trans hB)
        simp [hn]
      -- a step that leaves the copy and the extent alone
      have hsame : p.copy = (v.party A).copy → x = v.extent →
          ({ v.setParty A p with extent := x } : LockView).content = v.content := by
        intro hc hx
        refine content_congr (v := v) rfl hx ?_
        intro B hB
        obtain rfl : A = B := Option.some.inj (hA.symm.trans hB)
        simpa using hc
      have hbA := hb A
      have honA := hon A
      generalize hq : v.party A = q at hp hbA honA howns hsame
      generalize hy : v.extent = y at hp hbA hsame
      cases hp
      case unlinkRemove => exact Or.inr (Or.inr (Or.inl ⟨A, rfl⟩))
      case put read buf hd hbuf hv =>
        refine Or.inr (Or.inl ⟨A, _, _, rfl, ?_⟩)
        rw [hcontent _ rfl, hbuf]
      case flush T hf =>
        rcases flushes_content hf hbA with ⟨hn,rfl⟩ | ⟨e,he,hbuf⟩
        · refine Or.inr (Or.inr (Or.inr ⟨⟨A, hA, ?_, Or.inr ⟨T, ?_⟩⟩, hnone rfl⟩))
          · rw [hq]
            exact hn
          · rw [hq]
        · left
          rw [hnone rfl, hbuf]
          exact (content_of_copy hA (by rw [hq]; exact he)).symm
      case read hs =>
        left
        rw [hcontent _ rfl, hs.2.1]
        exact (content_of_copy hA (by rw [hq])).symm
      case loaded hd hbuf hv =>
        obtain ⟨hn,hx⟩ := hbA.loading _ _ _ rfl
        left
        rw [hcontent _ rfl, hbuf, ← hx, ← hy]
        refine (content_of_no_copy ?_).symm
        intro B hB
        obtain rfl : A = B := Option.some.inj (hA.symm.trans hB)
        rw [hq]
        exact hn
      case grantStale | conflict | forget => cases honA.2
      case drop | resolved | touch | fetch | probed | copy => exact absurd rfl (hk.2 A)
      all_goals exact Or.inl (hsame rfl rfl)
    · left
      obtain hx | ho := partyStep_extent hp
      · refine content_congr (v := v) rfl hx ?_
        intro B hB
        simp only [setParty_party]
        rw [if_neg]
        rintro rfl
        exact hA hB
      · exact absurd ((hg.owner A).mpr ho) hA
  | @grant _ A T ha ho =>
    left
    rw [content_of_no_copy (v := v) (by simp [ho])]
    apply content_of_no_copy
    intro B hB
    obtain rfl : A = B := Option.some.inj hB
    simpa [LockView.setAgent] using (hb A).bare _ _ ha (by simp [Role.Bare])
  | @wait _ A T o ha ho hw | @firstWait _ A T o ha ho hw =>
    left
    refine content_congr (v := v) rfl rfl ?_
    intro B _
    simp only [LockView.setAgent, setMark_party, setParty_party]
    split_ifs with hB
    · rw [hB]
    · rfl
  | @revokeBusy _ B T o hm hs =>
    left
    refine content_congr (v := v) rfl rfl ?_
    intro C _
    simp only [LockView.setAgent, setMark_party, setParty_party]
    split_ifs with h1 h2 h3 <;> simp_all
  | @revokeFree _ B T o cp x hm ho hx =>
    have hmem : (o, Phase.sent) ∈ v.mark B T := by simp [hm]
    have howner := (hg.sent B T o hmem).1
    have hnew : ({ (v.setParty o ⟨false, .freeRls, false, none,
      some (.handler B T, .releasing)⟩).setMark
        B T [(o, .releasing)] with extent := x } : LockView).content = x.map FInfo.buf := by
      apply content_of_no_copy
      intro C hC
      obtain rfl : o = C := Option.some.inj (howner.symm.trans hC)
      simp
    have hbo := hb o
    rw [ho] at hbo
    rcases flushes_content hx hbo with ⟨hn,rfl⟩ | ⟨e,he,hbuf⟩
    · refine Or.inr (Or.inr (Or.inr ⟨⟨o, howner, ?_, Or.inl ?_⟩, hnew⟩))
      · rw [ho]
        exact hn
      · rw [ho]
    · left
      rw [hnew, hbuf]
      exact (content_of_copy howner (by rw [ho]; exact he)).symm
  | @release _ A T ha ho =>
    left
    have hcopy := (hb A).bare _ _ ha (by simp [Role.Bare])
    rw [content_of_no_copy (v := v), content_of_no_copy]
    · rfl
    · intro B hB
      cases hB
    · intro B hB
      obtain rfl : A = B := Option.some.inj (ho.symm.trans hB)
      exact hcopy
  | @handlerRelease _ B T o ha ho =>
    left
    have hcopy := (hb o).bare _ _ ha (by simp [Role.Bare])
    rw [content_of_no_copy (v := v), content_of_no_copy]
    · rfl
    · intro C hC
      cases hC
    · intro C hC
      obtain rfl : o = C := Option.some.inj (ho.symm.trans hC)
      exact hcopy
  | @revoked _ B T o ha hB =>
    left
    refine content_congr (v := v) rfl rfl ?_
    intro C _
    simp only [LockView.setAgent, setMark_party, setParty_party]
    split_ifs with h1 h2 h3 <;> simp_all
  | @retry _ B s hp hs =>
    left
    refine content_congr (v := v) rfl rfl ?_
    intro C _
    simp only [setParty_party]
    split_ifs with hC
    · rw [hC]
    · rfl
  | @disconnect _ A ho => exact absurd rfl (hk.1 A)
  | @disconnectOther _ A ho => exact absurd rfl (hk.1 A)

end

/-- The owner's copy of an extent, else what the server has. -/
def Sys.content (s : Sys) (l : ℕ) : Option Str :=
  match (s.lockTable.info l).owner.bind (fun A => (s.client A).localExtent[l]?) with
  | some e => some e.extent
  | none => s.table[l]?.map FInfo.buf

theorem view_content (s : Sys) (l : ℕ) (g : ℕ → Option (Agent × Role)) :
    (s.view l g).content = s.content l := rfl

/-- What holds of a lock in every run without disconnection. -/
structure LockView.Ordered (v : LockView) : Prop where
  good : Good v
  online : v.Online
  peaceful : v.Peaceful
  bound : v.Bound

structure Sys.Ordered (s : Sys) : Prop where
  sound : s.Sound
  lock : ∀ l, ∃ g, s.Tracks l g ∧ (s.view l g).Ordered

section
variable {s s' : Sys} {e : Event} {A T l : ℕ} {g g' : ℕ → Option (Agent × Role)} {k : LockEvent}

/-- No thread is in the conflict branch. -/
theorem Sys.Ordered.no_resolve (h : s.Ordered) {n : ℕ} {stage : Stage}
    (hm : .resolve n stage ∈ (s.thread A T).calls) : False := by
  obtain ⟨g,ht,ho⟩ := h.lock n
  exact no_resolving ht ho.peaceful hm

theorem Sys.Ordered.connected (h : s.Ordered) (he : ∀ A, e ≠ .disconnect A)
    (hk : Accounts s e l k) : k.Connected := by
  constructor
  · rintro A rfl
    exact he A hk
  · rintro A rfl
    obtain ⟨T,m,-,n,stage,hmem⟩ := hk
    exact h.no_resolve hmem

/-- One step of a run without disconnection, seen from one lock. -/
theorem Sys.Ordered.progress (h : s.Ordered) (he : ∀ A, e ≠ .disconnect A)
    (hstep : s.step e = some s') (ht : s.Tracks l g) (ho : (s.view l g).Ordered) :
    ∃ g', s'.Tracks l g' ∧ (s'.view l g').Ordered ∧
      (s'.view l g' = s.view l g ∨
        ∃ k, Accounts s e l k ∧ k.Connected ∧ LockStep k (s.view l g) (s'.view l g')) := by
  obtain ⟨g',ht',hprog⟩ := step_advances h.sound ht ho.good hstep
  refine ⟨g', ht', ?_, ?_⟩
  · obtain heq | ⟨k,hk,hls⟩ := hprog
    · rw [heq]
      exact ho
    · have hc := h.connected he hk
      refine ⟨good_step ho.good hls ?_, online_step hls hc.1 ho.online,
        peaceful_step hls ho.online ho.peaceful, bound_step ho.good ho.online ho.bound hc hls⟩
      intro A hA
      exact absurd hA (hc.1 A)
  · obtain heq | ⟨k,hk,hls⟩ := hprog
    · exact Or.inl heq
    · exact Or.inr ⟨k, hk, h.connected he hk, hls⟩

theorem Sys.Ordered.step (h : s.Ordered) (he : ∀ A, e ≠ .disconnect A)
    (hstep : s.step e = some s') : s'.Ordered := by
  have hlock : ∀ l, ∃ g, s'.Tracks l g ∧ (s'.view l g).Ordered := by
    intro l
    obtain ⟨g,ht,ho⟩ := h.lock l
    obtain ⟨g',ht',ho',-⟩ := h.progress he hstep ht ho
    exact ⟨g', ht', ho'⟩
  refine ⟨⟨step_settled h.sound (fun A hA => absurd hA (he A)) hstep, fun l => ?_⟩, hlock⟩
  obtain ⟨g,ht,ho⟩ := hlock l
  exact ⟨g, ht, ho.good⟩

theorem ordered_init : Sys.init.Ordered := by
  refine ⟨sound_init, fun l => ⟨_, tracks_init l, ?_⟩⟩
  rw [view_init]
  refine ⟨good_init, fun _ => ⟨rfl, rfl⟩, fun _ _ _ h => (by cases h), fun A => ?_⟩
  constructor <;> simp [LockView.init]

end

end DisconnectedYfs.YFS
