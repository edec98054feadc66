import DisconnectedYfs.RPCReplyConnections

/-! The reference that `got_pdu` takes on a connection is given back by `dispatch`, unless the
request is for another instance of the server. -/
namespace DisconnectedYfs.RPC
attribute [local irreducible] Job.header Job.wellFormed

/-- What the thread of the job does next; any other answer of `checkduplicate_and_update` would do
as well. -/
def Job.next (job : Job) (j : ℕ) : ConnEvent :=
  match job.stage with
  | .queued => .start j
  | .refusing => .refused j
  | .accepted => .check j .new
  | .handling => .handled j
  | .sending | .leaving => .finish j

namespace ServerConns

/-- The procedure that is called is registered. -/
def registered (s : ServerConns) (job : Job) : Prop :=
  job.header.proc = bindProc ∨ s.procs job.header.proc = true

/-- The event brings in a request for another instance of the server. -/
def foreign (s : ServerConns) : ConnEvent → Bool
  | .gotPdu c pdu _ =>
    let job : Job := { conn := some c, arriving := c, pdu := pdu }
    job.wellFormed && s.refuses job.header
  | _ => false

/-- No job is such a request. -/
def Native (s : ServerConns) (job : Job) : Prop :=
  job.stage ≠ .refusing ∧ (job.wellFormed = true → s.refuses job.header = false)

section
variable {s s' : ServerConns} {c d j : ℕ} {n : UInt32} {job : Job} {e : ConnEvent}

/-- Every job can go on. -/
theorem Sound.job_goes_on (hs : s.Sound) (hlive : s.crashed = false)
    (hj : s.jobs[j]? = some job) (hreg : s.registered job) :
    ∃ s', s.step (job.next j) = some s' := by
  obtain ⟨c,hc,-⟩ := hs.placed hlive job (List.mem_of_getElem? hj)
  have hheld := holders_pos_of_job (List.mem_of_getElem? hj) hc
  obtain ⟨o,ho,hpos⟩ := hs.real hheld
  obtain ⟨s₁,h₁,-⟩ := decref_real ho hpos
  have hstep : s.step (job.next j) = s.move (job.next j) := by
    unfold step
    rw [hlive]
    rfl
  rw [hstep]
  unfold Job.next
  cases hst : job.stage with
  | queued =>
    simp only [move, jobAt, hj, hst, hc, Option.bind_some, decide_true, if_true, Option.map_some]
    split_ifs with hbad href hproc
    · exact ⟨_, by rw [h₁]; rfl⟩
    · exact ⟨_, rfl⟩
    · exact absurd hreg (by simpa [registered] using hproc)
    · exact ⟨_, rfl⟩
  | refusing =>
    simp only [move, jobAt, hj, hst, hc, Option.bind_some, decide_true, if_true, Option.map_some]
    exact ⟨_, rfl⟩
  | accepted =>
    simp only [move, jobAt, hj, hst, hc, Option.bind_some, decide_true, if_true, Option.map_some]
    split_ifs with hn
    · obtain ⟨s₂,h₂⟩ := hs.save_defined hlive hheld job.header.cltNonce
      exact ⟨_, by rw [h₂]; rfl⟩
    · exact ⟨_, rfl⟩
  | handling =>
    obtain ⟨s₂,h₂,-⟩ := hs.handled_iff hlive hj hst
    obtain ⟨-,hm⟩ := step_moves h₂
    exact ⟨s₂, by rw [← h₂]; unfold step; rw [hlive]; rfl⟩
  | sending =>
    simp only [move, jobAt, hj, hst, hc, Option.bind_some, decide_true, if_true, Option.map_some,
      true_or]
    exact ⟨_, by rw [h₁]; rfl⟩
  | leaving =>
    simp only [move, jobAt, hj, hst, hc, Option.bind_some, decide_true, if_true, Option.map_some,
      or_true]
    exact ⟨_, by rw [h₁]; rfl⟩

theorem step_nonce (h : s.step e = some s') : s'.nonce = s.nonce := by
  have hm := (step_moves h).2
  clear h
  cases hm with
  | accept | die | refuse | goAhead | refused | pass => rfl
  | collect ho hc h | malformed hj hst hc hbad h | finish hj hst hc h =>
    obtain ⟨o,-,-,rfl⟩ := decref_eq h
    rfl
  | queue pdu ho h =>
    obtain ⟨o,-,rfl⟩ := incref_eq h
    rfl
  | drop pdu ho h₁ h₂ =>
    obtain ⟨o₁,-,rfl⟩ := incref_eq h₁
    obtain ⟨o₂,-,-,rfl⟩ := decref_eq h₂
    rfl
  | check stat hj hst hc hn h =>
    have hsame := congrArg ServerConns.nonce (save_only h)
    exact hsame
  | handled hj hst hc ho h =>
    have hsame := congrArg ServerConns.nonce (switch_only h)
    exact hsame

/-- A job of the next state was there, is new, or has been moved on. -/
theorem step_job (h : s.step e = some s') {job' : Job} (hjob : job' ∈ s'.jobs) :
    job' ∈ s.jobs ∨
    (∃ c pdu, e = .gotPdu c pdu true ∧ job' = { conn := some c, arriving := c, pdu := pdu }) ∨
    ∃ job ∈ s.jobs, job'.pdu = job.pdu ∧
      (job'.stage = .refusing → job.wellFormed = true ∧ s.refuses job.header = true) := by
  have hm := (step_moves h).2
  clear h
  cases hm with
  | accept hnew => exact Or.inl hjob
  | collect ho hc h =>
    obtain ⟨o,-,-,rfl⟩ := decref_eq h
    exact Or.inl hjob
  | die ho => exact Or.inl hjob
  | @queue c r s₁ pdu ho h =>
    obtain ⟨o,-,rfl⟩ := incref_eq h
    rcases List.mem_append.mp hjob with hold | hnew
    · exact Or.inl hold
    · exact Or.inr (Or.inl ⟨c, pdu, rfl, List.mem_singleton.mp hnew⟩)
  | drop pdu ho h₁ h₂ =>
    obtain ⟨o₁,-,rfl⟩ := incref_eq h₁
    obtain ⟨o₂,-,-,rfl⟩ := decref_eq h₂
    exact Or.inl hjob
  | malformed hj hst hc hbad h | finish hj hst hc h =>
    obtain ⟨o,-,-,rfl⟩ := decref_eq h
    exact Or.inl (List.mem_of_mem_eraseIdx hjob)
  | refused hj hst hc => exact Or.inl (List.mem_of_mem_eraseIdx hjob)
  | refuse hj hst hc hok hr =>
    rcases List.mem_or_eq_of_mem_set hjob with hold | rfl
    · exact Or.inl hold
    · exact Or.inr (Or.inr ⟨_, List.mem_of_getElem? hj, rfl, fun _ => ⟨hok, hr⟩⟩)
  | goAhead hj hst hc hok hr | pass hj hst hc hn =>
    rcases List.mem_or_eq_of_mem_set hjob with hold | rfl
    · exact Or.inl hold
    · exact Or.inr (Or.inr ⟨_, List.mem_of_getElem? hj, rfl, fun h => by cases h⟩)
  | check stat hj hst hc hn h =>
    have hjobs := (excess_save h 0).2
    dsimp only at hjob
    rw [hjobs] at hjob
    rcases List.mem_or_eq_of_mem_set hjob with hold | rfl
    · exact Or.inl hold
    · refine Or.inr (Or.inr ⟨_, List.mem_of_getElem? hj, rfl, fun h => ?_⟩)
      cases stat <;> cases h
  | @handled j job c o _ hj hst hc ho h =>
    -- wherever it is sent, the job is the same
    have hsend : ∀ (t : ServerConns) p, t.jobs = s.jobs → job' ∈ (t.toSend j job p).jobs →
      job' ∈ s.jobs ∨
        ∃ job ∈ s.jobs, job'.pdu = job.pdu ∧
          (job'.stage = .refusing → job.wellFormed = true ∧ s.refuses job.header = true) := by
      intro t p ht hin
      rcases mem_toSend hin with hold | rfl
      · exact Or.inl (ht ▸ hold)
      · exact Or.inr ⟨job, List.mem_of_getElem? hj, rfl, fun h => by cases h⟩
    refine (?_ : job' ∈ s.jobs ∨ _).imp_right Or.inr
    rcases switch_cases h with ⟨-,rfl⟩ | ⟨-,-,rfl⟩ | ⟨-,-,s₁,h₁,⟨-,rfl⟩ | ⟨d,s₂,-,h₂,rfl⟩⟩
    · exact hsend s _ rfl hjob
    · exact hsend (s.looked job) _ rfl hjob
    · exact hsend s₁ none (decref_frame h₁).2 hjob
    · exact hsend s₂ _ ((incref_frame h₂).2.trans (decref_frame h₁).2) hjob

theorem native_step (hs : ∀ job ∈ s.jobs, s.Native job) (hf : s.foreign e = false)
    (h : s.step e = some s') : ∀ job ∈ s'.jobs, s'.Native job := by
  intro job' hjob
  have hnonce := step_nonce h
  have href : ∀ r, s'.refuses r = s.refuses r := by
    intro r
    unfold refuses
    rw [hnonce]
  unfold Native
  rw [href]
  rcases step_job h hjob with hold | ⟨c,pdu,rfl,rfl⟩ | ⟨job,hold,hpdu,hst⟩
  · exact hs job' hold
  · refine ⟨(fun h => by cases h), fun hok => ?_⟩
    simp only [foreign, hok, Bool.true_and] at hf
    exact hf
  · obtain ⟨-,hok⟩ := hs job hold
    rw [wellFormed_congr hpdu, header_congr hpdu]
    refine ⟨fun h => ?_, hok⟩
    obtain ⟨hw,hr⟩ := hst h
    rw [hok hw] at hr
    cases hr

/-- Without such requests no reference is lost. -/
theorem excess_native (hs : ∀ job ∈ s.jobs, s.Native job) (h : s.step e = some s') (c : ℕ) :
    s'.excess c = s.excess c := by
  have hstep := excess_step h c
  have hm := (step_moves h).2
  clear h
  cases hm with
  | refused hj hst hc => exact absurd hst (hs _ (List.mem_of_getElem? hj)).1
  | accept | collect | die | queue | drop | malformed | refuse | goAhead | check | pass | handled
  | finish => simpa [leaks] using hstep

end

section
variable {nonce : UInt32} {procs : Int32 → Bool} {createTime : ℕ → ℕ × ℕ} {es : List ConnEvent}
  {s : ServerConns}

/-- In a run without requests for another instance the count of every connection is the number of
its holders, and no job is stuck. In any state, a step changes counts and holders alike unless it is
the end of such a request. -/
theorem references_balanced
    (hrun : TraceSystem.run step (init nonce procs createTime) es = some s)
    (hmeets : TraceSystem.Meets step (fun s e => s.foreign e = false)
      (init nonce procs createTime) es) :
    (∀ c, s.refno c = s.holders c) ∧
    (s.crashed = false → ∀ j job, s.jobs[j]? = some job → s.registered job →
      ∃ s', s.step (job.next j) = some s') ∧
    ∀ (t t' : ServerConns) (e : ConnEvent), t.step e = some t' →
      ((∀ c, t'.refno c-t.refno c = t'.holders c-t.holders c) ↔ ∀ j, e ≠ .refused j) := by
  refine ⟨?_, ?_, ?_⟩
  · have hinv := TraceSystem.Meets.invariant
      (I := fun s => (∀ job ∈ s.jobs, s.Native job) ∧ ∀ c, s.excess c = 0)
      (fun s e s' hI hf h => ⟨native_step hI.1 hf h,
        fun c => (excess_native hI.1 h c).trans (hI.2 c)⟩)
      ⟨(fun job hjob => by cases hjob), fun c => rfl⟩ hmeets hrun
    intro c
    have := hinv.2 c
    unfold excess at this
    omega
  · intro hlive j job hj hreg
    exact (sound_run hrun).job_goes_on hlive hj hreg
  · intro t t' e h
    have hstep := excess_step h
    constructor
    · rintro hall j rfl
      obtain ⟨job,c,hj,hc⟩ : ∃ job c, t.jobs[j]? = some job ∧ job.conn = some c := by
        cases (step_moves h).2 with
        | refused hj hst hc => exact ⟨_, _, hj, hc⟩
      have hleak := hstep c
      have hsame := hall c
      simp only [leaks, hj, Option.any_some, hc, decide_true, if_true] at hleak
      unfold excess at hleak
      omega
    · intro hne c
      have hleak := hstep c
      have hnot : t.leaks c e = false := by
        cases e with
        | refused j => exact absurd rfl (hne j)
        | accept | collect | die | gotPdu | start | check | handled | finish => rfl
      rw [hnot] at hleak
      unfold excess at hleak
      simp only [Bool.false_eq_true, if_false] at hleak
      omega

end

/-- A request comes and is taken up by a thread. -/
def oneRequest (srvNonce : UInt8) : List ConnEvent :=
  [.accept, .gotPdu 0 (bindPdu 5 srvNonce) true, .start 0]

theorem references_balanced_bind :
    ∃ s, TraceSystem.run step (init 7 (fun _ => false) (fun i => (i, 0)))
      (oneRequest 7 ++ [.check 0 .new, .handled 0]) = some s ∧ s.refno 0 = 3 ∧ s.holders 0 = 3 := by
  obtain ⟨s,hrun,hs⟩ := TraceSystem.reaches_of_any step (fun s => s.refno 0 = 3)
    (init 7 (fun _ => false) (fun i => (i, 0))) (oneRequest 7 ++ [.check 0 .new, .handled 0])
    (by decide +kernel)
  have hbal := (references_balanced hrun (by decide +kernel)).1 0
  exact ⟨s, hrun, hs, hbal ▸ hs⟩

/-- The same request for an instance with another nonce: a reference is left that nobody holds. -/
theorem reference_lost :
    ∃ s, TraceSystem.run step (init 7 (fun _ => false) (fun i => (i, 0)))
      (oneRequest 9 ++ [.refused 0]) = some s ∧ s.refno 0 = 2 ∧ s.holders 0 = 1 :=
  TraceSystem.reaches_of_any step (fun s => s.refno 0 = 2 ∧ s.holders 0 = 1) _ _
    (by decide +kernel)

end ServerConns

end DisconnectedYfs.RPC
