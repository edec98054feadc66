import DisconnectedYfs.YFSLockProtocol

/-! What holds of one lock in every state the protocol reaches, provided clients go offline only
while nothing about the lock is under way at them. -/
namespace DisconnectedYfs.YFS

section Fields
variable (v : LockView) (A B T C U : ℕ) (p : Party) (g : Option (Agent × Role))
  (m : List (ℕ × Phase))

@[simp] theorem setParty_party :
    (v.setParty A p).party B = if B = A then p else v.party B := by
  simp only [LockView.setParty, Function.update_apply]

@[simp] theorem setParty_owner : (v.setParty A p).owner = v.owner := rfl
@[simp] theorem setParty_waiting : (v.setParty A p).waiting = v.waiting := rfl
@[simp] theorem setParty_pending : (v.setParty A p).pending = v.pending := rfl
@[simp] theorem setParty_mark : (v.setParty A p).mark = v.mark := rfl
@[simp] theorem setParty_extent : (v.setParty A p).extent = v.extent := rfl

@[simp] theorem setMark_mark :
    (v.setMark B T m).mark C U = if C = B ∧ U = T then m else v.mark C U := by
  simp only [LockView.setMark, Function.update_apply]
  split_ifs with h1 h2 h2 <;> simp_all

@[simp] theorem setMark_owner : (v.setMark B T m).owner = v.owner := rfl
@[simp] theorem setMark_waiting : (v.setMark B T m).waiting = v.waiting := rfl
@[simp] theorem setMark_pending : (v.setMark B T m).pending = v.pending := rfl
@[simp] theorem setMark_party : (v.setMark B T m).party = v.party := rfl
@[simp] theorem setMark_extent : (v.setMark B T m).extent = v.extent := rfl

@[simp] theorem freed_owner : v.freed.owner = none := rfl
@[simp] theorem freed_waiting : v.freed.waiting = [] := rfl
@[simp] theorem freed_pending : v.freed.pending B = v.pending B+v.waiting.count B := rfl
@[simp] theorem freed_party : v.freed.party = v.party := rfl
@[simp] theorem freed_mark : v.freed.mark = v.mark := rfl
@[simp] theorem freed_extent : v.freed.extent = v.extent := rfl

end Fields

/-- A client's own steps keep its standing with the server. -/
theorem partyStep_standing {k : Kind} {p p' : Party} {x x' : Option FInfo}
    (h : PartyStep k p x p' x') (hf : p.Fits) :
    p'.Fits ∧ (p'.Owns ↔ p.Owns) ∧ p'.due = p.due ∧ (p'.Urgent → p.Urgent) := by
  cases h
  case take hr | grant hr | grantStale hr _ | grantRevoked hr | resolved hr =>
    obtain ⟨-,rfl⟩ | ⟨-,rfl⟩ := hr <;> simp_all [Party.Fits, Party.Owns, Party.due, Party.Urgent]
  case ask h =>
    obtain ⟨rfl,rfl⟩ | ⟨rfl,rfl⟩ := h <;>
      simp_all [Party.Fits, Party.Owns, Party.due, Party.Urgent]
  case reconnect g =>
    rcases g with _ | ⟨_ | _,_ | _⟩ <;>
      simp_all [Party.Fits, Party.Owns, Party.due, Party.Urgent]
  all_goals simp_all [Party.Fits, Party.Owns, Party.due, Party.Urgent]

/-- They neither begin nor end a wait for a revoke, nor touch a revoke handler. -/
theorem partyStep_agent {k : Kind} {p p' : Party} {x x' : Option FInfo}
    (h : PartyStep k p x p' x') :
    (∀ T, p'.agent = some (.thread T, .serving) ↔ p.agent = some (.thread T, .serving)) ∧
      ∀ B T r, p'.agent = some (.handler B T, r) ↔ p.agent = some (.handler B T, r) := by
  cases h
  case take hr | grant hr | grantStale hr _ | grantRevoked hr | resolved hr =>
    obtain ⟨-,rfl⟩ | ⟨-,rfl⟩ := hr <;> simp
  case fetch hr _ _ => simp
  all_goals simp

/-- The server's record and the clients' agree. A revoke that is on its way goes to the owner, who
has not been told yet, and belongs to the one request that made the waiting set non-empty. -/
structure Good (v : LockView) : Prop where
  fits : ∀ A, (v.party A).Fits
  owner : ∀ A, v.owner = some A ↔ (v.party A).Owns
  due : ∀ A, v.waiting.count A+v.pending A = (v.party A).due
  marked : ∀ B T o p, (o,p) ∈ v.mark B T →
    v.mark B T = [(o,p)] ∧ (v.party B).agent = some (.thread T, .serving)
  sent : ∀ B T o, (o,.sent) ∈ v.mark B T → v.owner = some o ∧ ¬ (v.party o).Urgent ∧ v.waiting ≠ []
  sent_once : ∀ B T o C U q, (o,.sent) ∈ v.mark B T → (q,.sent) ∈ v.mark C U → C = B ∧ U = T
  releasing : ∀ B T o, (o,.releasing) ∈ v.mark B T ↔
    (v.party o).agent = some (.handler B T, .releasing)
  released : ∀ B T o, (o,.released) ∈ v.mark B T ↔
    (v.party o).agent = some (.handler B T, .released)
  urgent : ∀ A, v.owner = some A → (v.party A).Urgent → v.waiting ≠ []
  idle : v.owner = none → v.waiting = []

/-- Nothing about the lock is under way at client `A`, and it is not waiting to be re-acquired. -/
def LockView.Quiet (v : LockView) (A : ℕ) : Prop :=
  ((v.party A).agent = none ∨
    ∃ T r, (v.party A).agent = some (.thread T, r) ∧
      ((∃ read, r = .holding read) ∨ ∃ read buf, r = .loading read buf)) ∧
  ¬ ((v.party A).state = .free ∧ (v.party A).stale = true) ∧
  ∀ B T p, (A,p) ∉ v.mark B T

theorem good_party {v : LockView} {A : ℕ} {k : Kind} {p : Party} {x : Option FInfo}
    (hg : Good v) (h : PartyStep k (v.party A) v.extent p x) :
    Good { v.setParty A p with extent := x } := by
  obtain ⟨hf,ho,hd,hu⟩ := partyStep_standing h (hg.fits A)
  obtain ⟨hs,hh⟩ := partyStep_agent h
  constructor
  case fits => intro B; simp only [setParty_party]; split_ifs with hB; exacts [hf, hg.fits B]
  case owner =>
    intro B
    simp only [setParty_party]
    split_ifs with hB
    · subst hB; exact (hg.owner B).trans ho.symm
    · exact hg.owner B
  case due =>
    intro B
    simp only [setParty_party]
    split_ifs with hB
    · subst hB; exact (hg.due B).trans hd.symm
    · exact hg.due B
  case marked =>
    intro B T o q hm
    simp only [setParty_party]
    obtain ⟨h1,h2⟩ := hg.marked B T o q hm
    refine ⟨h1, ?_⟩
    split_ifs with hB
    · subst hB; exact (hs T).mpr h2
    · exact h2
  case sent =>
    intro B T o hm
    obtain ⟨h1,h2,h3⟩ := hg.sent B T o hm
    refine ⟨h1, ?_, h3⟩
    simp only [setParty_party]
    split_ifs with hB
    · subst hB; exact fun hc => h2 (hu hc)
    · exact h2
  case sent_once => exact hg.sent_once
  case releasing =>
    intro B T o
    simp only [setParty_party]
    split_ifs with hB
    · subst hB; exact (hg.releasing B T o).trans (hh B T _).symm
    · exact hg.releasing B T o
  case released =>
    intro B T o
    simp only [setParty_party]
    split_ifs with hB
    · subst hB; exact (hg.released B T o).trans (hh B T _).symm
    · exact hg.released B T o
  case urgent =>
    intro B hB hU
    simp only [setParty_party] at hU
    split_ifs at hU with hBA
    · subst hBA; exact hg.urgent B hB (hu hU)
    · exact hg.urgent B hB hU
  case idle => exact hg.idle

theorem good_grant {v : LockView} {A T : ℕ} (hg : Good v)
    (ha : (v.party A).agent = some (.thread T, .asking)) (ho : v.owner = none) :
    Good { v.setAgent A (some (.thread T, .granted)) with owner := some A, waiting := [] } := by
  obtain ⟨hfits,howner,hdue,hmarked,hsent,honce,hreleasing,hreleased,hurgent,hidle⟩ := hg
  have hf := hfits A
  have hd := hdue A
  simp only [Party.Fits, Party.due, ha] at hf hd
  constructor <;> simp only [LockView.setAgent, setParty_party,
    setParty_pending, setParty_mark]
  case fits =>
    intro B
    split_ifs with hB
    · simp [Party.Fits, hf]
    · exact hfits B
  case owner =>
    intro B
    split_ifs with hB
    · simp [Party.Owns, hf, hB]
    · grind
  case due =>
    intro B
    split_ifs with hB
    · simp [Party.due, hB]; omega
    · grind
  all_goals grind [Party.Urgent]

/-- A client that asks is not in the waiting set, so the set grows by exactly this client. -/
theorem count_insert {v : LockView} (hg : Good v) {A T : ℕ}
    (ha : (v.party A).agent = some (.thread T, .asking)) (B : ℕ) :
    (v.waiting.insert A).count B+v.pending B =
      if B = A then 1 else v.waiting.count B+v.pending B := by
  have hd := hg.due A
  simp only [Party.due, ha] at hd
  have hA : A ∉ v.waiting := List.count_eq_zero.mp (by omega)
  rw [List.insert_of_not_mem hA, List.count_cons]
  split_ifs <;> grind

theorem good_wait {v : LockView} {A T o : ℕ} (hg : Good v)
    (ha : (v.party A).agent = some (.thread T, .asking)) (ho : v.owner = some o) :
    Good { v.setAgent A (some (.thread T, .refused)) with waiting := v.waiting.insert A } := by
  have hcount := count_insert hg ha
  obtain ⟨hfits,howner,hdue,hmarked,hsent,honce,hreleasing,hreleased,hurgent,hidle⟩ := hg
  have hf := hfits A
  simp only [Party.Fits, ha] at hf
  have hw' : v.waiting.insert A ≠ [] := List.ne_nil_of_mem (List.mem_insert_self)
  constructor <;> simp only [LockView.setAgent, setParty_party, setParty_owner,
    setParty_pending, setParty_mark]
  case fits =>
    intro B
    split_ifs with hB
    · simp [Party.Fits, hf]
    · exact hfits B
  case owner =>
    intro B
    split_ifs with hB
    · subst hB
      rw [howner B]
      simp [Party.Owns, ha]
    · exact howner B
  case due =>
    intro B
    rw [hcount B]
    split_ifs with hB
    · simp [Party.due, hf]
    · exact hdue B
  all_goals grind [Party.Urgent]

theorem good_firstWait {v : LockView} {A T o : ℕ} (hg : Good v)
    (ha : (v.party A).agent = some (.thread T, .asking)) (ho : v.owner = some o)
    (hw : v.waiting = []) :
    Good { (v.setAgent A (some (.thread T, .serving))).setMark A T [(o, .sent)] with
      waiting := [A] } := by
  have hcount := count_insert hg ha
  obtain ⟨hfits,howner,hdue,hmarked,hsent,honce,hreleasing,hreleased,hurgent,hidle⟩ := hg
  have hf := hfits A
  simp only [Party.Fits, ha] at hf
  have hoA : o ≠ A := by
    intro h
    subst h
    have := (howner o).mp ho
    simp [Party.Owns, ha] at this
  constructor <;> simp only [LockView.setAgent, setParty_party, setParty_owner,
    setParty_pending, setParty_mark, setMark_mark, setMark_owner, setMark_pending,
    setMark_party]
  case fits =>
    intro B
    split_ifs with hB
    · simp [Party.Fits, hf]
    · exact hfits B
  case owner =>
    intro B
    split_ifs with hB
    · subst hB
      rw [howner B]
      simp [Party.Owns, ha]
    · exact howner B
  case due =>
    intro B
    have := hcount B
    rw [hw] at this
    rw [show [A] = List.insert A [] from rfl, this]
    split_ifs with hB
    · simp [Party.due, hf]
    · rw [← hdue B, hw]
  all_goals grind [Party.Urgent]

/-- The client a revoke is sent to is not the one whose request caused it. -/
theorem mark_ne {v : LockView} (hg : Good v) {B T o : ℕ} {q : Phase} (hm : (o,q) ∈ v.mark B T) :
    o ≠ B := by
  intro h
  subst h
  have hB := (hg.marked o T o q hm).2
  cases q with
  | sent =>
    have := (hg.owner o).mp (hg.sent o T o hm).1
    simp [Party.Owns, hB] at this
  | releasing =>
    rw [(hg.releasing o T o).mp hm] at hB
    cases hB
  | released =>
    rw [(hg.released o T o).mp hm] at hB
    cases hB

/-- The answer to a revoke turns into the `RETRY` answer of the request that caused it. -/
theorem party_answered {p : Party} {T : ℕ} (hf : p.Fits)
    (ha : p.agent = some (.thread T, .serving)) :
    Party.Fits { p with agent := some (.thread T, .refused) } ∧
      (Party.Owns { p with agent := some (.thread T, .refused) } ↔ p.Owns) ∧
      Party.due { p with agent := some (.thread T, .refused) } = p.due := by
  obtain ⟨o,s,sl,cp,g⟩ := p
  cases ha
  simp_all [Party.Fits, Party.Owns, Party.due]

theorem party_told {p : Party} (hf : p.Fits) (ho : p.Owns)
    (hs : p.state = .acquiring ∨ p.state = .waiting ∨ p.state = .locked) :
    Party.Fits { p with state := .releasing, stale := false } ∧
      Party.Owns { p with state := .releasing, stale := false } ∧
      Party.due { p with state := .releasing, stale := false } = p.due := by
  obtain ⟨o,s,sl,cp,g⟩ := p
  rcases g with _ | ⟨_ | _,_ | _⟩ <;> simp_all [Party.Fits, Party.Owns, Party.due]

theorem good_revokeBusy {v : LockView} {B T o : ℕ} (hg : Good v)
    (hm : v.mark B T = [(o, .sent)])
    (hs : (v.party o).state = .acquiring ∨ (v.party o).state = .waiting ∨
      (v.party o).state = .locked) :
    Good (((v.setParty o { v.party o with state := .releasing, stale := false }).setAgent B
      (some (.thread T, .refused))).setMark B T []) := by
  have hmem : (o, Phase.sent) ∈ v.mark B T := by simp [hm]
  have hBo := (mark_ne hg hmem).symm
  obtain ⟨hfits,howner,hdue,hmarked,hsent,honce,hreleasing,hreleased,hurgent,hidle⟩ := hg
  have hB := (hmarked B T o .sent hmem).2
  obtain ⟨ho,hu,hw⟩ := hsent B T o hmem
  obtain ⟨hf1,ho1,hd1⟩ := party_told (hfits o) ((howner o).mp ho) hs
  obtain ⟨hf2,ho2,hd2⟩ := party_answered (hfits B) hB
  constructor <;> simp only [LockView.setAgent, setParty_party, setParty_owner, setParty_waiting,
    setParty_pending, setParty_mark, setMark_mark, setMark_owner, setMark_waiting, setMark_pending,
    setMark_party, if_neg hBo]
  case fits =>
    intro C
    split_ifs with hC hC'
    · exact hf2
    · exact hf1
    · exact hfits C
  case owner =>
    intro C
    split_ifs with hC hC'
    · rw [ho2, hC, howner B]
    · rw [hC']; exact iff_of_true ho ho1
    · exact howner C
  case due =>
    intro C
    split_ifs with hC hC'
    · rw [hd2, hC, hdue B]
    · rw [hd1, hC', hdue o]
    · exact hdue C
  all_goals grind [Party.Urgent]

theorem good_revokeFree {v : LockView} {B T o : ℕ} {cp : Option Entry} {x : Option FInfo}
    (hg : Good v) (hm : v.mark B T = [(o, .sent)])
    (hp : v.party o = ⟨false, .free, false, cp, none⟩) :
    Good { (v.setParty o ⟨false, .freeRls, false, none,
      some (.handler B T, .releasing)⟩).setMark B T
      [(o, .releasing)] with extent := x } := by
  have hmem : (o, Phase.sent) ∈ v.mark B T := by simp [hm]
  have hBo := (mark_ne hg hmem).symm
  obtain ⟨hfits,howner,hdue,hmarked,hsent,honce,hreleasing,hreleased,hurgent,hidle⟩ := hg
  have hB := (hmarked B T o .sent hmem).2
  obtain ⟨ho,hu,hw⟩ := hsent B T o hmem
  have hd := hdue o
  simp only [hp, Party.due] at hd
  constructor <;> simp only [setParty_party, setParty_owner, setParty_waiting,
    setParty_pending, setParty_mark, setMark_mark, setMark_owner, setMark_waiting, setMark_pending,
    setMark_party]
  case fits =>
    intro C
    split_ifs with hC
    · simp [Party.Fits]
    · exact hfits C
  case owner =>
    intro C
    split_ifs with hC
    · simp [Party.Owns, hC, ho]
    · exact howner C
  case due =>
    intro C
    split_ifs with hC
    · simpa [Party.due, hC] using hd
    · exact hdue C
  all_goals grind [Party.Urgent]

/-- Every waiter that leaves the waiting set gets a retry, so what is due does not change. -/
theorem freed_due (v : LockView) (B : ℕ) :
    v.freed.waiting.count B+v.freed.pending B = v.waiting.count B+v.pending B := by
  simp only [freed_waiting, freed_pending, List.count_nil]
  omega

theorem good_release {v : LockView} {A T : ℕ} (hg : Good v)
    (ha : (v.party A).agent = some (.thread T, .releasing)) (ho : v.owner = some A) :
    Good (v.freed.setAgent A (some (.thread T, .released))) := by
  have hfd := freed_due v
  obtain ⟨hfits,howner,hdue,hmarked,hsent,honce,hreleasing,hreleased,hurgent,hidle⟩ := hg
  have hf := hfits A
  have hd := hdue A
  simp only [Party.Fits, Party.due, ha] at hf hd
  have hu : (v.party A).Urgent := Or.inl hf.2.1
  constructor <;> simp only [LockView.setAgent, setParty_party, setParty_owner, setParty_waiting,
    setParty_pending, setParty_mark,
    freed_owner, freed_waiting, freed_pending, freed_party, freed_mark]
  case fits =>
    intro C
    split_ifs with hC
    · simp [Party.Fits, hf]
    · exact hfits C
  case owner =>
    intro C
    split_ifs with hC
    · simp [Party.Owns]
    · grind
  case due =>
    intro C
    split_ifs with hC
    · simp [Party.due, hC]; omega
    · simp only [List.count_nil]; rw [← hdue C]; omega
  all_goals grind

theorem good_handlerRelease {v : LockView} {B T o : ℕ} (hg : Good v)
    (ha : (v.party o).agent = some (.handler B T, .releasing)) (ho : v.owner = some o) :
    Good ((v.freed.setAgent o (some (.handler B T, .released))).setMark B T
      [(o, .released)]) := by
  have hmem := (hg.releasing B T o).mpr ha
  have hBo := (mark_ne hg hmem).symm
  obtain ⟨hfits,howner,hdue,hmarked,hsent,honce,hreleasing,hreleased,hurgent,hidle⟩ := hg
  have hf := hfits o
  have hd := hdue o
  simp only [Party.Fits, Party.due, ha] at hf hd
  have hu : (v.party o).Urgent := Or.inr hf.2.2.1
  have hmB := hmarked B T o .releasing hmem
  constructor <;> simp only [LockView.setAgent, setParty_party, setParty_owner, setParty_waiting,
    setParty_pending, setParty_mark, setMark_mark, setMark_owner, setMark_waiting, setMark_pending,
    setMark_party, freed_owner, freed_waiting, freed_pending, freed_party, freed_mark]
  case fits =>
    intro C
    split_ifs with hC
    · simp [Party.Fits, hf]
    · exact hfits C
  case owner =>
    intro C
    split_ifs with hC
    · simp [Party.Owns]
    · grind
  case due =>
    intro C
    split_ifs with hC
    · simp [Party.due, hC]; omega
    · simp only [List.count_nil]; rw [← hdue C]; omega
  all_goals grind

theorem good_revoked {v : LockView} {B T o : ℕ} (hg : Good v)
    (ha : (v.party o).agent = some (.handler B T, .released)) :
    Good (((v.setParty o { v.party o with state := .none, agent := none }).setAgent B
      (some (.thread T, .refused))).setMark B T []) := by
  have hmem := (hg.released B T o).mpr ha
  have hBo := (mark_ne hg hmem).symm
  obtain ⟨hfits,howner,hdue,hmarked,hsent,honce,hreleasing,hreleased,hurgent,hidle⟩ := hg
  have hmB := hmarked B T o .released hmem
  have ho := howner o
  have hd := hdue o
  obtain ⟨hf2,ho2,hd2⟩ := party_answered (hfits B) hmB.2
  simp only [Party.Owns, Party.due, ha, and_false, iff_false] at ho hd
  constructor <;> simp only [LockView.setAgent, setParty_party, setParty_owner, setParty_waiting,
    setParty_pending, setParty_mark, setMark_mark, setMark_owner, setMark_waiting, setMark_pending,
    setMark_party, if_neg hBo]
  case fits =>
    intro C
    split_ifs with hC hC'
    · exact hf2
    · simp [Party.Fits]
    · exact hfits C
  case owner =>
    intro C
    split_ifs with hC hC'
    · rw [ho2, hC, howner B]
    · simp [Party.Owns, hC', ho]
    · exact howner C
  case due =>
    intro C
    split_ifs with hC hC'
    · rw [hd2, hC, hdue B]
    · simp only [Party.due, hC', hd]
    · exact hdue C
  case sent_once =>
    intro C U q D V r h1 h2
    have h1' : (q, Phase.sent) ∈ v.mark C U := by split_ifs at h1; exacts [absurd h1 (by simp), h1]
    have h2' : (r, Phase.sent) ∈ v.mark D V := by split_ifs at h2; exacts [absurd h2 (by simp), h2]
    exact honce C U q D V r h1' h2'
  all_goals grind [Party.Urgent]

/-- A client to which a retry is due is waiting for it, so the retry is used up. -/
theorem party_retried {p : Party} {s : LState} (hf : p.Fits) (hd : 0 < p.due)
    (hs : p.state = .acquiring ∧ s = .waiting ∨ p.state = .waiting ∧ s = .acquiring) :
    Party.Fits { p with state := s } ∧ (Party.Owns { p with state := s } ↔ p.Owns) ∧
      Party.due { p with state := s }+1 = p.due ∧ ¬ Party.Urgent { p with state := s } := by
  obtain ⟨o,st,sl,cp,g⟩ := p
  obtain ⟨rfl,rfl⟩ | ⟨rfl,rfl⟩ := hs <;> rcases g with _ | ⟨_ | _,_ | _⟩ <;>
    simp_all [Party.Fits, Party.Owns, Party.due, Party.Urgent]

theorem good_retry {v : LockView} {B : ℕ} {s : LState} (hg : Good v) (hp : 0 < v.pending B)
    (hs : (v.party B).state = .acquiring ∧ s = .waiting ∨
      (v.party B).state = .waiting ∧ s = .acquiring) :
    Good { v.setParty B { v.party B with state := s } with
      pending := Function.update v.pending B (v.pending B-1) } := by
  obtain ⟨hfits,howner,hdue,hmarked,hsent,honce,hreleasing,hreleased,hurgent,hidle⟩ := hg
  have hd := hdue B
  obtain ⟨hf1,ho1,hd1,hu1⟩ := party_retried (hfits B) (by omega) hs
  constructor <;> simp only [setParty_party, setParty_owner, setParty_waiting,
    setParty_mark, Function.update_apply]
  case fits =>
    intro C
    split_ifs with hC
    · exact hf1
    · exact hfits C
  case owner =>
    intro C
    split_ifs with hC
    · rw [ho1, hC, howner B]
    · exact howner C
  case due =>
    intro C
    split_ifs with hC
    · rw [hC]; omega
    · exact hdue C
  all_goals grind

/-- Going offline while quiet: the client keeps what it holds or has cached, but owns nothing. -/
theorem party_offline {p : Party} (hf : p.Fits)
    (hq : p.agent = none ∨ ∃ T r, p.agent = some (.thread T, r) ∧
      ((∃ read, r = .holding read) ∨ ∃ read buf, r = .loading read buf))
    (hs : ¬ (p.state = .free ∧ p.stale = true)) :
    Party.Fits { p with offline := true, state := p.state.offline } ∧
      Party.due { p with offline := true, state := p.state.offline } = p.due ∧
      ¬ Party.Urgent { p with offline := true, state := p.state.offline } := by
  obtain ⟨o,st,sl,cp,g⟩ := p
  obtain rfl | ⟨T,r,rfl,⟨read,rfl⟩ | ⟨read,buf,rfl⟩⟩ := hq <;> cases st <;>
    simp_all [Party.Fits, Party.due, Party.Urgent, LState.offline]

theorem good_disconnect {v : LockView} {A : ℕ} (hg : Good v) (hq : v.Quiet A)
    (ho : v.owner = some A) :
    Good (v.freed.setParty A
      { v.party A with offline := true, state := (v.party A).state.offline }) := by
  obtain ⟨hq1,hq2,hq3⟩ := hq
  obtain ⟨hfits,howner,hdue,hmarked,hsent,honce,hreleasing,hreleased,hurgent,hidle⟩ := hg
  obtain ⟨hf,hd,hu⟩ := party_offline (hfits A) hq1 hq2
  constructor <;> simp only [setParty_party, setParty_owner, setParty_waiting,
    setParty_pending, setParty_mark,
    freed_owner, freed_waiting, freed_pending, freed_party, freed_mark]
  case fits =>
    intro C
    split_ifs with hC
    · exact hf
    · exact hfits C
  case owner =>
    intro C
    split_ifs with hC
    · simp [Party.Owns]
    · grind
  case due =>
    intro C
    have := hdue C
    split_ifs with hC
    · rw [hd, ← hC, ← this, List.count_nil]; omega
    · rw [← this, List.count_nil]; omega
  all_goals grind

theorem good_disconnectOther {v : LockView} {A : ℕ} (hg : Good v) (hq : v.Quiet A)
    (ho : v.owner ≠ some A) :
    Good (v.setParty A
      { v.party A with offline := true, state := (v.party A).state.offline }) := by
  obtain ⟨hq1,hq2,hq3⟩ := hq
  obtain ⟨hfits,howner,hdue,hmarked,hsent,honce,hreleasing,hreleased,hurgent,hidle⟩ := hg
  obtain ⟨hf,hd,hu⟩ := party_offline (hfits A) hq1 hq2
  constructor <;> simp only [setParty_party, setParty_owner, setParty_waiting,
    setParty_pending, setParty_mark]
  case fits =>
    intro C
    split_ifs with hC
    · exact hf
    · exact hfits C
  case owner =>
    intro C
    split_ifs with hC
    · simp [Party.Owns, hC, ho]
    · exact howner C
  case due =>
    intro C
    split_ifs with hC
    · rw [hd, hC, hdue A]
    · exact hdue C
  all_goals grind

theorem good_step {e : LockEvent} {v v' : LockView} (hg : Good v) (h : LockStep e v v')
    (hq : ∀ A, e = .disconnect A → v.Quiet A) : Good v' := by
  cases h with
  | party h => exact good_party hg h
  | grant ha ho => exact good_grant hg ha ho
  | wait ha ho _ => exact good_wait hg ha ho
  | firstWait ha ho hw => exact good_firstWait hg ha ho hw
  | revokeBusy hm hs => exact good_revokeBusy hg hm hs
  | revokeFree hm ho _ => exact good_revokeFree hg hm ho
  | release ha ho => exact good_release hg ha ho
  | handlerRelease ha ho => exact good_handlerRelease hg ha ho
  | revoked ha _ => exact good_revoked hg ha
  | retry hp hs => exact good_retry hg hp hs
  | disconnect ho => exact good_disconnect hg (hq _ rfl) ho
  | disconnectOther ho => exact good_disconnectOther hg (hq _ rfl) ho

/-- Only the owner changes the server's extent. -/
theorem partyStep_extent {k : Kind} {p p' : Party} {x x' : Option FInfo}
    (h : PartyStep k p x p' x') : x' = x ∨ p.Owns := by
  cases h
  case flush => exact Or.inr ⟨rfl, rfl⟩
  all_goals exact Or.inl rfl

theorem others_not_own {v : LockView} {A : ℕ} (hg : Good v) (ho : v.owner = some A) (B : ℕ)
    (hB : B ≠ A) : ¬ (v.party B).Owns := by
  intro h
  have := (hg.owner B).mpr h
  rw [ho] at this
  exact hB (Option.some.inj this).symm

/-- A client that has the lock after a step, and no work to do for the server, has had it before:
the step was its own, or left it and the extent as they were. -/
theorem resting_step {k : LockEvent} {v v' : LockView} {C : ℕ} (hg : Good v) (h : LockStep k v v')
    (howner : v'.owner = some C)
    (hagent : (v'.party C).agent = none ∨ ∃ T, (v'.party C).agent = some (.thread T, .leaving)) :
    v.owner = some C ∧
      ((∃ j, k = .party C j ∧ PartyStep j (v.party C) v.extent (v'.party C) v'.extent) ∨
        (v.party C).agent = (v'.party C).agent ∧ (v.party C).copy = (v'.party C).copy ∧
          v.extent = v'.extent) := by
  cases h with
  | @party _ A j p x hp =>
    have howner' : v.owner = some C := howner
    refine ⟨howner', ?_⟩
    by_cases hC : C = A
    · subst hC
      refine Or.inl ⟨j, rfl, ?_⟩
      simpa using hp
    · -- another client does not touch the extent
      right
      have hx : x = v.extent :=
        (partyStep_extent hp).resolve_right (others_not_own hg howner' A (Ne.symm hC))
      simp [hC, hx]
  | @grant _ A T ha ho =>
    obtain rfl : A = C := Option.some.inj howner
    simp [LockView.setAgent] at hagent
  | @wait _ A T o ha ho hw | @firstWait _ A T o ha ho hw =>
    refine ⟨howner, Or.inr ?_⟩
    simp only [LockView.setAgent, setMark_party, setParty_party] at hagent ⊢
    split_ifs at hagent ⊢ with hC
    · simp at hagent
    · exact ⟨rfl, rfl, rfl⟩
  | @revokeBusy _ B T o hm hs =>
    refine ⟨howner, Or.inr ?_⟩
    simp only [LockView.setAgent, setMark_party, setParty_party] at hagent ⊢
    by_cases hB : C = B
    · rw [if_pos hB] at hagent
      simp at hagent
    · simp only [if_neg hB]
      by_cases hCo : C = o
      · subst hCo
        rw [if_pos rfl]
        exact ⟨rfl, rfl, rfl⟩
      · rw [if_neg hCo]
        exact ⟨rfl, rfl, rfl⟩
  | @revokeFree _ B T o cp x hm hp hx' =>
    -- the owner gives the lock back
    have ho := (hg.sent B T o (by simp [hm])).1
    have howner' : v.owner = some C := howner
    rw [ho] at howner'
    obtain rfl := Option.some.inj howner'
    simp at hagent
  | release | handlerRelease | disconnect => cases howner
  | @revoked _ B T o ha hB =>
    refine ⟨howner, Or.inr ?_⟩
    simp only [LockView.setAgent, setMark_party, setParty_party] at hagent ⊢
    by_cases hC : C = B
    · rw [if_pos hC] at hagent
      simp at hagent
    · simp only [if_neg hC]
      by_cases hCo : C = o
      · subst hCo
        have hno : ¬ (v.party C).Owns := by simp [Party.Owns, ha]
        exact absurd ((hg.owner C).mp howner) hno
      · rw [if_neg hCo]
        exact ⟨rfl, rfl, rfl⟩
  | @retry _ B s hp hs =>
    refine ⟨howner, Or.inr ?_⟩
    simp only [setParty_party]
    split_ifs with hC
    · subst hC
      exact ⟨rfl, rfl, rfl⟩
    · exact ⟨rfl, rfl, rfl⟩
  | @disconnectOther _ A ho =>
    refine ⟨howner, Or.inr ?_⟩
    simp only [setParty_party]
    split_ifs with hC
    · subst hC
      exact ⟨rfl, rfl, rfl⟩
    · exact ⟨rfl, rfl, rfl⟩

end DisconnectedYfs.YFS
