import DisconnectedYfs.YFSLockInvariant

/-! What the protocol of one lock keeps of the extent that the lock protects: the owner's cached
copy has the version of the server's extent. It is kept as long as the application reads before it
writes, `unlink` removes no copy that is in use, and no revoke reaches a stale lock. -/
namespace DisconnectedYfs.YFS

/-- A client's copy in relation to the server's extent. -/
structure Party.Current (p : Party) (x : Option FInfo) : Prop where
  kept : p.copy ≠ none → p.stale = true ∨ p.offline = true ∨ p.Owns
  offline : p.offline = true → p.copy ≠ none → p.state ≠ .none ∨ p.stale = true
  flushed : ∀ a r, p.agent = some (a, r) → r = .releasing ∨ r = .released ∨ r = .dropped →
    p.copy = none
  version : p.Owns → p.stale = false → ∀ e f, p.copy = some e → x = some f →
    e.attr.version = f.a.version
  -- who has read and has no copy has been told that there is no extent
  known : p.Owns → p.stale = false → (∃ T, p.agent = some (.thread T, .holding true)) →
    p.copy = none → x = none

def LockView.Current (v : LockView) : Prop := ∀ A, (v.party A).Current v.extent

/-- The steps that keep copies current. -/
def LockEvent.careful (v : LockView) : LockEvent → Prop
  | .party _ (.wrote read _) => read = true
  | .party A .unlinked => (v.party A).state ≠ .locked ∧ (v.party A).state ≠ .releasing
  | .revoke o => (v.party o).stale = false
  | _ => True

/-- Only the owner's copy depends on the server's extent. -/
theorem current_of_not_owns {p : Party} {x x' : Option FInfo} (h : p.Current x) (ho : ¬ p.Owns) :
    p.Current x' :=
  ⟨h.kept, h.offline, h.flushed, fun hc => absurd hc ho, fun hc => absurd hc ho⟩

/-- The copy of a client that is using the extent. -/
theorem current_write {p : Party} {x : Option FInfo} {T : ℕ} {r : Role} {e : Entry} (hf : p.Fits)
    (ha : p.agent = some (.thread T, r))
    (hr : r = .resolving ∨ r = .leaving ∨ (∃ read, r = .holding read) ∨
      ∃ read buf, r = .loading read buf)
    (hv : p.Owns → p.stale = false → ∀ f, x = some f → e.attr.version = f.a.version) :
    Party.Current { p with copy := some e } x := by
  obtain ⟨o,s,sl,cp,g⟩ := p
  cases ha
  obtain rfl | rfl | ⟨read,rfl⟩ | ⟨read,buf,rfl⟩ := hr
  all_goals
    simp only [Party.Fits] at hf
    constructor <;> simp_all [Party.Owns] <;> grind

theorem current_partyStep {k : Kind} {p p' : Party} {x x' : Option FInfo}
    (h : PartyStep k p x p' x') (hf : p.Fits) (hc : p.Current x)
    (hw : ∀ read buf, k = .wrote read buf → read = true)
    (hu : k = .unlinked → p.state ≠ .locked ∧ p.state ≠ .releasing) : p'.Current x' := by
  obtain ⟨hf',hown,-⟩ := partyStep_standing h hf
  obtain ⟨hkept,hoffline,hflushed,hversion,hknown⟩ := hc
  cases h
  case take hr | grant hr | grantRevoked hr | resolved hr =>
    clear hf' hown
    simp only [Party.Owns, Party.Fits] at hf hkept hversion hknown
    obtain ⟨-,rfl⟩ | ⟨-,rfl⟩ := hr <;> constructor <;> simp_all [Party.Owns]
  case grantStale cp cp' _ _ hr hcopy =>
    have hagree : ∀ e f, cp' = some e → x = some f → e.attr.version = f.a.version := by
      intro e f he hx
      obtain hn | ⟨e',-,he',ha⟩ := hcopy
      · rw [hn] at he
        cases he
      · rw [he'] at he
        cases he
        rw [hx] at ha
        exact ha.symm
    clear hf' hown hcopy hkept hversion hknown hflushed hoffline
    obtain ⟨-,rfl⟩ | ⟨-,rfl⟩ := hr <;> constructor <;> simp_all [Party.Owns]
  case ask h =>
    clear hf' hown
    simp only [Party.Owns, Party.Fits] at hf hkept hversion hknown
    obtain ⟨rfl,rfl⟩ | ⟨rfl,rfl⟩ := h <;> constructor <;> simp_all [Party.Owns]
  case reconnect =>
    -- a client that was offline owns nothing
    have hno : ∀ {q : Prop}, Party.Owns _ → q := fun ho => absurd (hown.mp ho).1 (by simp)
    refine ⟨?_, by simp, hflushed, hno, hno⟩
    intro hcopy
    obtain hs | hs := hoffline rfl hcopy
    · exact Or.inl (by simpa using Or.inr hs)
    · exact Or.inl (by simpa using Or.inl hs)
  case unlinkRemove g =>
    clear hf' hown hversion hkept hoffline hflushed
    obtain ⟨hl,hr⟩ := hu rfl
    constructor <;> try simp
    rintro ho hs T rfl
    simp_all [Party.Fits]
  case read hsame | touch hsame | probed hsame =>
    refine current_write hf' rfl (by simp) ?_
    intro ho hs f hx
    rw [hsame.2.2]
    exact hversion ho hs _ f rfl hx
  case loaded hv =>
    refine current_write hf' rfl (by simp) ?_
    intro _ _ f hx
    cases hx
    exact hv
  case fetch r hr hd hv =>
    refine current_write hf' rfl ?_ ?_
    · obtain rfl | ⟨read,rfl⟩ := hr <;> simp
    · intro _ _ f hx
      cases hx
      exact hv
  case put cp e T read buf hd hb hv =>
    obtain rfl := hw read buf rfl
    refine current_write hf' rfl (by simp) ?_
    intro ho hs f hx
    rw [hv]
    rcases cp with _ | e'
    · have := hknown ho hs ⟨T, rfl⟩ rfl
      rw [hx] at this
      cases this
    · exact hversion ho hs e' f rfl hx
  case copy cp e T hd hv =>
    refine current_write hf' rfl (by simp) ?_
    intro ho hs f hx
    rw [hv]
    rcases cp with _ | e'
    · have := hknown ho hs ⟨T, rfl⟩ rfl
      rw [hx] at this
      cases this
    · exact hversion ho hs e' f rfl hx
  all_goals
    clear hf' hown
    simp only [Party.Owns, Party.Fits] at hf hkept hversion hknown
    constructor <;> simp_all [Party.Owns]

section Step
variable {v v' : LockView} {A : ℕ}

/-- A step that changes one client's side and perhaps the server's extent. -/
theorem current_setParty {p : Party} {x : Option FInfo} (hc : v.Current) (hp : p.Current x)
    (hx : x = v.extent ∨ ∀ B, B ≠ A → ¬ (v.party B).Owns) (B : ℕ) :
    ((v.setParty A p).party B).Current x := by
  rw [setParty_party]
  split_ifs with hB
  · exact hp
  · obtain rfl | hx := hx
    · exact hc B
    · exact current_of_not_owns (hc B) (hx B hB)

/-- A request is sent on or refused. -/
theorem current_waits {p : Party} {x : Option FInfo} {T : ℕ} {r q : Role} (hc : p.Current x)
    (ha : p.agent = some (.thread T, r)) (hr : r = .asking ∨ r = .serving)
    (hq : q = .serving ∨ q = .refused) :
    Party.Current { p with agent := some (.thread T, q) } x := by
  obtain ⟨hkept,hoffline,hflushed,hversion,hknown⟩ := hc
  obtain ⟨o,s,sl,cp,g⟩ := p
  cases ha
  obtain ⟨-,rfl⟩ | ⟨-,rfl⟩ := hr <;> obtain rfl | rfl := hq <;> constructor <;>
    simp_all [Party.Owns]

theorem current_granted {p : Party} {x : Option FInfo} {T : ℕ} (hf : p.Fits) (hc : p.Current x)
    (ha : p.agent = some (.thread T, .asking)) :
    Party.Current { p with agent := some (.thread T, .granted) } x := by
  obtain ⟨hkept,hoffline,hflushed,hversion,hknown⟩ := hc
  obtain ⟨o,s,sl,cp,g⟩ := p
  cases ha
  simp only [Party.Fits] at hf
  constructor <;> simp_all [Party.Owns]
  -- a copy without the stale mark would have been the owner's
  intro hst e _ he
  rw [hst] at hkept
  simp [he] at hkept

theorem current_told {p : Party} {x : Option FInfo} (hf : p.Fits) (ho : p.Owns) (hc : p.Current x)
    (hst : p.stale = false)
    (hs : p.state = .acquiring ∨ p.state = .waiting ∨ p.state = .locked) :
    Party.Current { p with state := .releasing, stale := false } x := by
  have ho' := (party_told hf ho hs).2.1
  obtain ⟨hkept,hoffline,hflushed,hversion,hknown⟩ := hc
  exact ⟨fun _ => Or.inr (Or.inr ho'), fun _ _ => Or.inl (by simp), hflushed,
    fun _ _ => hversion ho hst, fun _ _ => hknown ho hst⟩

/-- A release is answered. -/
theorem current_released {p : Party} {x : Option FInfo} {a : Agent} {s : LState}
    {g : Option (Agent × Role)} {r : Role} (hc : p.Current x) (ha : p.agent = some (a, r))
    (hr : r = .releasing ∨ r = .released) (hg : g = none ∧ s ≠ .free ∨ g = some (a, .released)) :
    Party.Current { p with state := s, agent := g } x := by
  have hcopy : p.copy = none := by
    apply hc.flushed a r ha
    obtain ⟨-,rfl⟩ | ⟨-,rfl⟩ := hr <;> simp
  obtain ⟨o,st,sl,cp,g'⟩ := p
  simp only at hcopy
  subst hcopy
  obtain ⟨rfl,hs⟩ | rfl := hg <;> constructor <;> simp_all [Party.Owns]

theorem current_offline {p : Party} {x : Option FInfo} (hf : p.Fits) (hc : p.Current x)
    (hq : p.agent = none ∨ ∃ T r, p.agent = some (.thread T, r) ∧
      ((∃ read, r = .holding read) ∨ ∃ read buf, r = .loading read buf)) :
    Party.Current { p with offline := true, state := p.state.offline } x := by
  obtain ⟨hkept,hoffline,hflushed,hversion,hknown⟩ := hc
  obtain ⟨o,st,sl,cp,g⟩ := p
  have hno : ∀ {q : Prop}, Party.Owns ⟨true, st.offline, sl, cp, g⟩ → q :=
    fun h => absurd h.1 (by simp)
  refine ⟨by simp, ?_, hflushed, hno, hno⟩
  intro _ hcopy
  have hkept' := hkept hcopy
  obtain rfl | ⟨T,r,rfl,⟨read,rfl⟩ | ⟨read,buf,rfl⟩⟩ := hq
  · obtain ⟨rfl | rfl,-⟩ := hf
    · right
      obtain h | h | h := hkept'
      · exact h
      · exact (hoffline h hcopy).resolve_left (by simp)
      · exact absurd h.2.1 (by simp)
    · simp [LState.offline]
  · obtain rfl | ⟨-,rfl,-⟩ := hf <;> simp [LState.offline]
  · obtain rfl | ⟨-,rfl,-⟩ := hf <;> simp [LState.offline]

theorem current_retried {p : Party} {x : Option FInfo} {s : LState} (hf : p.Fits) (hc : p.Current x)
    (hd : 0 < p.due)
    (hs : p.state = .acquiring ∧ s = .waiting ∨ p.state = .waiting ∧ s = .acquiring) :
    Party.Current { p with state := s } x := by
  have hown := (party_retried hf hd hs).2.1
  obtain ⟨hkept,hoffline,hflushed,hversion,hknown⟩ := hc
  refine ⟨?_, ?_, hflushed, fun h => hversion (hown.mp h), fun h => hknown (hown.mp h)⟩
  · intro hcopy
    rw [hown]
    exact hkept hcopy
  · intro _ _
    left
    obtain ⟨-,rfl⟩ | ⟨-,rfl⟩ := hs <;> simp

/-- The request behind a revoke is refused when the revoke is answered. -/
theorem current_answered {B T : ℕ} (hc : v.Current)
    (hB : (v.party B).agent = some (.thread T, .serving)) :
    ((v.setAgent B (some (.thread T, .refused))).setMark B T []).Current :=
  current_setParty hc (current_waits (hc B) hB (by simp) (by simp)) (Or.inl rfl)

/-- Steps that are careful keep the copies current. -/
theorem current_step {k : LockEvent} (hg : Good v) (hc : v.Current) (hk : k.careful v)
    (h : LockStep k v v') (hq : ∀ A, k = .disconnect A → v.Quiet A) : v'.Current := by
  have hset : ∀ A p, Party.Current p v.extent → ∀ B, ((v.setParty A p).party B).Current v.extent :=
    fun A p hp => current_setParty hc hp (Or.inl rfl)
  cases h with
  | @party _ A k p x hp =>
    refine current_setParty hc (current_partyStep hp (hg.fits A) (hc A) ?_ ?_) ?_
    · rintro read buf rfl
      exact hk
    · rintro rfl
      exact hk
    · obtain hx | ho := partyStep_extent hp
      · exact Or.inl hx
      · exact Or.inr (others_not_own hg ((hg.owner A).mpr ho))
  | @grant _ A T ha ho => exact hset A _ (current_granted (hg.fits A) (hc A) ha)
  | @wait _ A T o ha ho hw => exact hset A _ (current_waits (hc A) ha (by simp) (by simp))
  | @firstWait _ A T o ha ho hw => exact hset A _ (current_waits (hc A) ha (by simp) (by simp))
  | @revokeBusy _ B T o hm hs =>
    have hmem : (o, Phase.sent) ∈ v.mark B T := by simp [hm]
    have hB := (hg.marked B T o .sent hmem).2
    have ho := (hg.owner o).mp (hg.sent B T o hmem).1
    refine current_answered (hset o _ (current_told (hg.fits o) ho (hc o) hk hs)) ?_
    rw [setParty_party, if_neg (mark_ne hg hmem).symm]
    exact hB
  | @revokeFree _ B T o cp x hm ho hx =>
    have hmem : (o, Phase.sent) ∈ v.mark B T := by simp [hm]
    refine current_setParty hc ?_ (Or.inr (others_not_own hg (hg.sent B T o hmem).1))
    constructor <;> simp
  | @release _ A T ha ho => exact hset A _ (current_released (hc A) ha (by simp) (by simp))
  | @handlerRelease _ B T o ha ho => exact hset o _ (current_released (hc o) ha (by simp) (by simp))
  | @revoked _ B T o ha hB =>
    have hmem := (hg.released B T o).mpr ha
    refine current_answered (hset o _ (current_released (hc o) ha (by simp) (by simp))) ?_
    rw [setParty_party, if_neg (mark_ne hg hmem).symm]
    exact hB
  | @retry _ B s hp hs =>
    have hd := hg.due B
    exact hset B _ (current_retried (hg.fits B) (hc B) (by omega) hs)
  | @disconnect _ A ho => exact hset A _ (current_offline (hg.fits A) (hc A) (hq A rfl).1)
  | @disconnectOther _ A ho => exact hset A _ (current_offline (hg.fits A) (hc A) (hq A rfl).1)

end Step

end DisconnectedYfs.YFS
