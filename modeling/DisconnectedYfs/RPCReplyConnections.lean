import DisconnectedYfs.RPCReferenceCounts

/-! Which connection a reply goes to. The latest connection of a client is saved before its request
is looked at, and found again when the handler has returned. -/
namespace DisconnectedYfs.RPC
attribute [local irreducible] Job.header

theorem compareTime_nonneg {a b : ℕ × ℕ} :
    0 ≤ compareTime a b ↔ b.1 < a.1 ∨ (b.1 = a.1 ∧ b.2 ≤ a.2) := by
  unfold compareTime
  split_ifs <;> omega

section Slots
variable {l : List (UInt32 × Option ℕ)} {n m : UInt32} {p : Option ℕ} {x : UInt32 × Option ℕ}

theorem lookup_assign : (assign n p l).lookup m = if m = n then some p else l.lookup m := by
  induction l with
  | nil => exact lookup_cons_eq m n p []
  | cons x l ih =>
    obtain ⟨k,q⟩ := x
    unfold assign
    by_cases hk : k = n
    · subst hk
      rw [if_pos rfl, lookup_cons_eq, lookup_cons_eq]
      split_ifs <;> rfl
    · rw [if_neg hk, lookup_cons_eq, lookup_cons_eq, ih]
      by_cases hm : m = k
      · rw [if_pos hm, if_pos hm, if_neg (hm ▸ hk)]
      · rw [if_neg hm, if_neg hm]

theorem mem_assign (h : x ∈ assign n p l) : x = (n, p) ∨ x ∈ l := by
  induction l with
  | nil => exact Or.inl (List.mem_singleton.mp h)
  | cons y l ih =>
    obtain ⟨k,q⟩ := y
    unfold assign at h
    split_ifs at h
    · rcases List.mem_cons.mp h with h | h
      · exact Or.inl h
      · exact Or.inr (List.mem_cons_of_mem _ h)
    · rcases List.mem_cons.mp h with h | h
      · exact Or.inr (h ▸ List.mem_cons_self)
      · exact (ih h).imp_right (List.mem_cons_of_mem _)

end Slots

/-- The local variables of a `dispatch`: `c` is a connection, and the one that the request came on
up to the `send`. -/
def Job.Placed (job : Job) : Prop :=
  ∃ c, job.conn = some c ∧ (job.stage ≠ .sending → c = job.arriving)

theorem Job.Placed.stay {job : Job} {stage : Stage} (h : job.Placed)
    (hst : job.stage ≠ .sending) : ({ job with stage := stage } : Job).Placed := by
  obtain ⟨c,hc,hsame⟩ := h
  exact ⟨c, hc, fun _ => hsame hst⟩

namespace ServerConns

/-- No request of the client has come on a connection that is younger. -/
def Latest (s : ServerConns) (n : UInt32) (c : ℕ) : Prop :=
  (n, c) ∈ s.used ∧ ∀ d, (n, d) ∈ s.used → 0 ≤ compareTime (s.createTime c) (s.createTime d)

/-- What holds as long as no null pointer was followed. -/
structure Sound (s : ServerConns) : Prop where
  counted : ∀ c, 0 ≤ s.excess c
  filed : ∀ n c, s.slots.lookup n = some (some c) → s.Latest n c
  spent : ∀ n c, (n, c) ∈ s.used → n ≠ 0 ∧ (s.slots.lookup n).isSome
  full : s.crashed = false → ∀ x ∈ s.slots, x.2 ≠ none
  placed : s.crashed = false → ∀ job ∈ s.jobs, job.Placed
  known : ∀ job ∈ s.jobs, job.stage = .handling → job.header.cltNonce ≠ 0 →
    (s.slots.lookup job.header.cltNonce).isSome

section
variable {s s' : ServerConns} {c d j : ℕ} {n : UInt32} {job : Job} {e : ConnEvent}

/-- Who is held is there. -/
theorem Sound.real (hs : s.Sound) (h : 0 < s.holders c) : ∃ o, s.objs c = some o ∧ 1 ≤ o.refno := by
  have hcount := hs.counted c
  unfold excess refno at hcount
  rcases ho : s.objs c with _ | o
  · rw [ho] at hcount
    simp only [Option.map_none, Option.getD_none] at hcount
    omega
  · rw [ho] at hcount
    simp only [Option.map_some, Option.getD_some] at hcount
    exact ⟨o, rfl, by omega⟩

theorem holders_pos_of_job (hj : job ∈ s.jobs) (hc : job.conn = some c) : 0 < s.holders c := by
  have h : 0 < s.jobs.countP (·.conn = some c) := List.countP_pos_iff.mpr ⟨job, hj, by simp [hc]⟩
  unfold holders
  omega

theorem mem_of_lookup {l : List (UInt32 × Option ℕ)} {p : Option ℕ} (h : l.lookup n = some p) :
    (n, p) ∈ l := by
  induction l with
  | nil => cases h
  | cons x l ih =>
    obtain ⟨m,q⟩ := x
    rw [lookup_cons_eq] at h
    split_ifs at h with hm
    · cases h
      exact hm ▸ List.mem_cons_self
    · exact List.mem_cons_of_mem _ (ih h)

theorem holders_pos_of_slot (h : s.slots.lookup n = some (some c)) : 0 < s.holders c := by
  have h : 0 < s.slots.countP (·.2 = some c) :=
    List.countP_pos_iff.mpr ⟨_, mem_of_lookup h, by simp⟩
  unfold holders
  omega

/-- A step that leaves the entries of `conns_` alone. -/
theorem Sound.of_jobs (hs : s.Sound) (hslots : s'.slots = s.slots) (hused : s'.used = s.used)
    (htime : s'.createTime = s.createTime) (hcrash : s'.crashed = s.crashed)
    (hcount : ∀ c, 0 ≤ s'.excess c)
    (hjobs : ∀ job ∈ s'.jobs, job ∈ s.jobs ∨ ((s.crashed = false → job.Placed) ∧
      (job.stage = .handling → job.header.cltNonce = 0))) : s'.Sound where
  counted := hcount
  filed n c h := by
    rw [hslots] at h
    have := hs.filed n c h
    unfold Latest at *
    rwa [hused, htime]
  spent n c h := by
    rw [hslots]
    exact hs.spent n c (hused ▸ h)
  full h := by
    rw [hslots]
    exact hs.full (hcrash ▸ h)
  placed h job hjob := by
    rcases hjobs job hjob with hold | ⟨hnew,-⟩
    · exact hs.placed (hcrash ▸ h) job hold
    · exact hnew (hcrash ▸ h)
  known job hjob hst hn := by
    rw [hslots]
    rcases hjobs job hjob with hold | ⟨-,hnew⟩
    · exact hs.known job hold hst hn
    · exact absurd (hnew hst) hn

/-- `save` changes nothing but its entry and the counts. -/
theorem save_frame (h : s.save n c = some s') :
    s'.used = s.used ∧ s'.createTime = s.createTime ∧ s'.crashed = s.crashed ∧
    ((s'.slots = assign n (some c) s.slots ∧ (s.slots.lookup n = none ∨
      ∃ d, s.slots.lookup n = some (some d) ∧
        compareTime (s.createTime d) (s.createTime c) < 0)) ∨
    (s'.slots = s.slots ∧ ∃ d, s.slots.lookup n = some (some d) ∧
      0 ≤ compareTime (s.createTime d) (s.createTime c))) := by
  have hused := congrArg ServerConns.used (save_only h)
  have htime := congrArg ServerConns.createTime (save_only h)
  have hcrash := congrArg ServerConns.crashed (save_only h)
  refine ⟨hused, htime, hcrash, ?_⟩
  rcases save_cases h with ⟨hn,s₁,h₁,rfl⟩ | ⟨d,hn,⟨hlt,s₁,s₂,h₁,h₂,rfl⟩ | ⟨hge,rfl⟩⟩
  · rw [(incref_frame h₁).1]
    exact Or.inl ⟨rfl, Or.inl hn⟩
  · rw [(incref_frame h₂).1, (decref_frame h₁).1]
    exact Or.inl ⟨rfl, Or.inr ⟨d, hn, hlt⟩⟩
  · exact Or.inr ⟨rfl, d, hn, Int.not_lt.mp hge⟩

/-- The entry that the client has after a request came on `c`. -/
theorem save_latest (hs : s.Sound) (h : s.save n c = some s') :
    ∃ d, s'.slots.lookup n = some (some d) ∧ ((n, d) ∈ s.used ∨ d = c) ∧
      0 ≤ compareTime (s.createTime d) (s.createTime c) ∧
      ∀ q, (n, q) ∈ s.used → 0 ≤ compareTime (s.createTime d) (s.createTime q) := by
  obtain ⟨-,-,-,⟨hslots,hold⟩ | ⟨hslots,d,hd,hge⟩⟩ := save_frame h
  · refine ⟨c, by rw [hslots, lookup_assign, if_pos rfl], Or.inr rfl, ?_, ?_⟩
    · exact compareTime_nonneg.mpr (Or.inr ⟨rfl, Nat.le_refl _⟩)
    · intro q hq
      rcases hold with hnone | ⟨d,hd,hlt⟩
      · have := (hs.spent n q hq).2
        rw [hnone] at this
        cases this
      · -- the entry that is displaced was the latest
        have hdq := compareTime_nonneg.mp ((hs.filed n d hd).2 q hq)
        have hdc := mt compareTime_nonneg.mpr (Int.not_le.mpr hlt)
        apply compareTime_nonneg.mpr
        omega
  · refine ⟨d, by rw [hslots, hd], Or.inl (hs.filed n d hd).1, hge, ?_⟩
    intro q hq
    exact (hs.filed n d hd).2 q hq

theorem save_other (h : s.save n c = some s') {m : UInt32} (hm : m ≠ n) :
    s'.slots.lookup m = s.slots.lookup m := by
  obtain ⟨-,-,-,⟨hslots,-⟩ | ⟨hslots,-⟩⟩ := save_frame h
  · rw [hslots, lookup_assign, if_neg hm]
  · rw [hslots]

/-- A request of a client that asks for at-most-once is classified. -/
theorem Sound.check (hs : s.Sound) (hlive : s.crashed = false) (hj : s.jobs[j]? = some job)
    (hst : job.stage = .accepted) (hc : job.conn = some c)
    (hn : job.header.cltNonce = n) (hn0 : n ≠ 0) (h : s.save n c = some s') (stage : Stage)
    (hcount : ∀ d, 0 ≤ ({ s' with
      used := (n, c) :: s'.used,
      jobs := s'.jobs.set j { job with stage := stage } } : ServerConns).excess d) :
    ({ s' with
      used := (n, c) :: s'.used,
      jobs := s'.jobs.set j { job with stage := stage } } : ServerConns).Sound := by
  obtain ⟨d,hd,hin,hge,hmax⟩ := save_latest hs h
  obtain ⟨hused,htime,hcrash,hslots⟩ := save_frame h
  have hjobs : s'.jobs = s.jobs := (excess_save h 0).2
  have hkeeps : ∀ m, (s.slots.lookup m).isSome → (s'.slots.lookup m).isSome := by
    intro m hm
    by_cases hmn : m = n
    · rw [hmn, hd]
      rfl
    · rwa [save_other h hmn]
  refine ⟨hcount, ?_, ?_, ?_, ?_, ?_⟩
  · intro m q hq
    change s'.slots.lookup m = some (some q) at hq
    show (m, q) ∈ (n, c) :: s'.used ∧
      ∀ r, (m, r) ∈ (n, c) :: s'.used →
        0 ≤ compareTime (s'.createTime q) (s'.createTime r)
    rw [hused, htime]
    by_cases hmn : m = n
    · subst hmn
      rw [hd] at hq
      cases hq
      refine ⟨?_, ?_⟩
      · rcases hin with hin | rfl
        · exact List.mem_cons_of_mem _ hin
        · exact List.mem_cons_self
      · intro r hr
        rcases List.mem_cons.mp hr with hr | hr
        · cases hr
          exact hge
        · exact hmax r hr
    · rw [save_other h hmn] at hq
      obtain ⟨hmem,hall⟩ := hs.filed m q hq
      refine ⟨List.mem_cons_of_mem _ hmem, ?_⟩
      intro r hr
      rcases List.mem_cons.mp hr with hr | hr
      · cases hr
        exact absurd rfl hmn
      · exact hall r hr
  · intro m q hq
    change (m, q) ∈ (n, c) :: s'.used at hq
    rw [hused] at hq
    rcases List.mem_cons.mp hq with hq | hq
    · obtain ⟨rfl,rfl⟩ := Prod.mk.inj hq
      refine ⟨hn0, ?_⟩
      show (s'.slots.lookup _).isSome
      rw [hd]
      rfl
    · obtain ⟨hm0,hsome⟩ := hs.spent m q hq
      exact ⟨hm0, hkeeps m hsome⟩
  · intro _ x hx
    change x ∈ s'.slots at hx
    rcases hslots with ⟨hslots,-⟩ | ⟨hslots,-⟩
    · rw [hslots] at hx
      rcases mem_assign hx with rfl | hx
      · exact Option.some_ne_none c
      · exact hs.full hlive x hx
    · rw [hslots] at hx
      exact hs.full hlive x hx
  · intro _ job' hjob'
    change job' ∈ s'.jobs.set j _ at hjob'
    rw [hjobs] at hjob'
    rcases List.mem_or_eq_of_mem_set hjob' with hold | rfl
    · exact hs.placed hlive job' hold
    · obtain ⟨c',hc',hsame⟩ := hs.placed hlive job (List.mem_of_getElem? hj)
      refine ⟨c', hc', fun _ => hsame ?_⟩
      rw [hst]
      exact fun h => by cases h
  · intro job' hjob' hstage hne
    change job' ∈ s'.jobs.set j _ at hjob'
    rw [hjobs] at hjob'
    rcases List.mem_or_eq_of_mem_set hjob' with hold | rfl
    · exact hkeeps _ (hs.known job' hold hstage hne)
    · rw [header_congr (a := { job with stage := stage }) (b := job) rfl, hn]
      show (s'.slots.lookup n).isSome
      rw [hd]
      rfl

theorem latest_some (h : s.latest job = some d) :
    s.looked job = s ∧ s.slots.lookup job.header.cltNonce = some (some d) := by
  unfold latest at h
  unfold looked
  unfold subscript at *
  rcases hn : s.slots.lookup job.header.cltNonce with _ | p
  · rw [hn] at h
    cases h
  · rw [hn] at h
    cases h
    exact ⟨rfl, rfl⟩

theorem latest_none (h : s.latest job = none) (hfull : ∀ x ∈ s.slots, x.2 ≠ none) :
    (s.looked job).slots = assign job.header.cltNonce none s.slots ∧
      s.slots.lookup job.header.cltNonce = none := by
  unfold latest at h
  unfold looked
  unfold subscript at *
  rcases hn : s.slots.lookup job.header.cltNonce with _ | p
  · exact ⟨rfl, rfl⟩
  · rw [hn] at h
    cases h
    exact absurd rfl (hfull _ (mem_of_lookup hn))

theorem mem_toSend {job' : Job} {p : Option ℕ} (h : job' ∈ (s.toSend j job p).jobs) :
    job' ∈ s.jobs ∨ job' = { job with conn := p, stage := .sending } :=
  List.mem_or_eq_of_mem_set h

/-- A job that goes on to its `send` on a connection. -/
theorem Sound.toSend (hs : s.Sound) (hslots : s'.slots = s.slots) (hused : s'.used = s.used)
    (htime : s'.createTime = s.createTime) (hcrash : s'.crashed = s.crashed)
    (hjobs : s'.jobs = s.jobs) (hcount : ∀ d, 0 ≤ (s'.toSend j job (some c)).excess d) :
    (s'.toSend j job (some c)).Sound := by
  refine hs.of_jobs hslots hused htime hcrash hcount ?_
  intro job' hjob'
  rcases mem_toSend hjob' with hold | rfl
  · exact Or.inl (hjobs ▸ hold)
  · exact Or.inr ⟨fun _ => ⟨c, rfl, fun h => absurd rfl h⟩, fun h => by cases h⟩

theorem Sound.switch {dead : Bool} (hs : s.Sound) (hlive : s.crashed = false)
    (h : s.switch j job c dead = some s') (hcount : ∀ d, 0 ≤ s'.excess d) : s'.Sound := by
  rcases switch_cases h with ⟨-,rfl⟩ | ⟨-,hsame,rfl⟩ | ⟨-,-,s₁,h₁,⟨hnull,rfl⟩ | ⟨d,s₂,hd,h₂,rfl⟩⟩
  · exact hs.toSend rfl rfl rfl rfl rfl hcount
  · rw [(latest_some hsame).1] at hcount ⊢
    exact hs.toSend rfl rfl rfl rfl rfl hcount
  · -- the null pointer: only the entries that were there before are of use
    obtain ⟨hslots,hnone⟩ := latest_none hnull (hs.full hlive)
    obtain ⟨o,-,-,rfl⟩ := decref_eq h₁
    have hlook : ∀ m, m ≠ job.header.cltNonce →
        (s.looked job).slots.lookup m = s.slots.lookup m := by
      intro m hm
      rw [hslots, lookup_assign, if_neg hm]
    have hself : (s.looked job).slots.lookup job.header.cltNonce = some none := by
      rw [hslots, lookup_assign, if_pos rfl]
    have hkeeps : ∀ m, (s.slots.lookup m).isSome → ((s.looked job).slots.lookup m).isSome := by
      intro m hm
      by_cases hmn : m = job.header.cltNonce
      · rw [hmn, hself]
        rfl
      · rwa [hlook m hmn]
    refine ⟨hcount, ?_, ?_, (fun h => by cases h), (fun h => by cases h), ?_⟩
    · intro m q hq
      change (s.looked job).slots.lookup m = some (some q) at hq
      by_cases hmn : m = job.header.cltNonce
      · rw [hmn, hself] at hq
        cases hq
      · rw [hlook m hmn] at hq
        exact hs.filed m q hq
    · intro m q hq
      obtain ⟨hm0,hsome⟩ := hs.spent m q hq
      exact ⟨hm0, hkeeps m hsome⟩
    · intro job' hjob' hst hn
      rcases mem_toSend hjob' with hold | rfl
      · exact hkeeps _ (hs.known job' hold hst hn)
      · cases hst
  · have hsame := (latest_some hd).1
    rw [hsame] at h₁
    obtain ⟨o₁,-,-,rfl⟩ := decref_eq h₁
    obtain ⟨o₂,-,rfl⟩ := incref_eq h₂
    exact hs.toSend rfl rfl rfl rfl rfl hcount

theorem sound_step (hs : s.Sound) (h : s.step e = some s') : s'.Sound := by
  have hcount : ∀ c, 0 ≤ s'.excess c := by
    intro c
    have hstep := excess_step h c
    have hold := hs.counted c
    split_ifs at hstep <;> omega
  obtain ⟨hlive,hm⟩ := step_moves h
  clear h
  cases hm with
  | accept hnew => exact hs.of_jobs rfl rfl rfl rfl hcount (fun job h => Or.inl h)
  | collect ho hc h =>
    obtain ⟨o,-,-,rfl⟩ := decref_eq h
    exact hs.of_jobs rfl rfl rfl rfl hcount (fun job h => Or.inl h)
  | die ho => exact hs.of_jobs rfl rfl rfl rfl hcount (fun job h => Or.inl h)
  | @queue c r s₁ pdu ho h =>
    obtain ⟨o,-,rfl⟩ := incref_eq h
    refine hs.of_jobs rfl rfl rfl rfl hcount (fun job hjob => ?_)
    rcases List.mem_append.mp hjob with hold | hnew
    · exact Or.inl hold
    · rw [List.mem_singleton] at hnew
      subst hnew
      exact Or.inr ⟨fun _ => ⟨c, rfl, fun _ => rfl⟩, fun h => by cases h⟩
  | drop pdu ho h₁ h₂ =>
    obtain ⟨o₁,-,rfl⟩ := incref_eq h₁
    obtain ⟨o₂,-,-,rfl⟩ := decref_eq h₂
    exact hs.of_jobs rfl rfl rfl rfl hcount (fun job h => Or.inl h)
  | malformed hj hst hc hbad h | finish hj hst hc h =>
    obtain ⟨o,-,-,rfl⟩ := decref_eq h
    exact hs.of_jobs rfl rfl rfl rfl hcount (fun job h => Or.inl (List.mem_of_mem_eraseIdx h))
  | refused hj hst hc =>
    exact hs.of_jobs rfl rfl rfl rfl hcount (fun job h => Or.inl (List.mem_of_mem_eraseIdx h))
  | refuse hj hst hc hok hr | goAhead hj hst hc hok hr =>
    refine hs.of_jobs rfl rfl rfl rfl hcount (fun job' hjob' => ?_)
    rcases List.mem_or_eq_of_mem_set hjob' with hold | rfl
    · exact Or.inl hold
    · refine Or.inr ⟨fun _ => ?_, fun h => by cases h⟩
      exact (hs.placed hlive _ (List.mem_of_getElem? hj)).stay (by rw [hst]; decide)
  | @pass j job c hj hst hc hn =>
    refine hs.of_jobs rfl rfl rfl rfl hcount (fun job' hjob' => ?_)
    rcases List.mem_or_eq_of_mem_set hjob' with hold | rfl
    · exact Or.inl hold
    · have hheader := header_congr (a := { job with stage := .handling }) (b := job) rfl
      refine Or.inr ⟨fun _ => ?_, fun _ => by rw [hheader, hn]⟩
      exact (hs.placed hlive _ (List.mem_of_getElem? hj)).stay (by rw [hst]; decide)
  | check stat hj hst hc hn h => exact hs.check hlive hj hst hc rfl hn h _ hcount
  | handled hj hst hc ho h => exact hs.switch hlive h hcount

theorem decref_real {o : ConnObj} (ho : s.objs c = some o) (hpos : 1 ≤ o.refno) :
    ∃ s', s.decref c = some s' ∧ ∀ d, d ≠ c → s'.objs d = s.objs d := by
  unfold decref
  rw [ho]
  dsimp only
  rw [if_neg (by omega)]
  exact ⟨_, rfl, fun d hd => Function.update_of_ne hd _ _⟩

theorem incref_real {o : ConnObj} (ho : s.objs c = some o) : ∃ s', s.incref c = some s' := by
  unfold incref
  rw [ho]
  exact ⟨_, rfl⟩

/-- `save` finds what it needs. -/
theorem Sound.save_defined (hs : s.Sound) (hlive : s.crashed = false) (hc : 0 < s.holders c)
    (n : UInt32) : ∃ s', s.save n c = some s' := by
  obtain ⟨o,ho,-⟩ := hs.real hc
  unfold save
  rcases hn : s.slots.lookup n with _ | p
  · obtain ⟨s₁,h₁⟩ := incref_real ho
    dsimp only
    rw [h₁]
    exact ⟨_, rfl⟩
  · cases p with
    | none => exact absurd rfl (hs.full hlive _ (mem_of_lookup hn))
    | some d =>
      obtain ⟨o',ho',hpos⟩ := hs.real (holders_pos_of_slot hn)
      dsimp only
      rw [ho', if_neg (by simp)]
      split_ifs with hlt
      · -- the connection that is displaced is another one
        have hne : c ≠ d := by
          rintro rfl
          have := compareTime_nonneg.mpr (Or.inr ⟨rfl, Nat.le_refl (s.createTime c).2⟩)
          omega
        obtain ⟨s₁,h₁,hsame⟩ := decref_real ho' hpos
        obtain ⟨s₂,h₂⟩ := incref_real ((hsame c hne).trans ho)
        rw [h₁, Option.bind_some, h₂]
        exact ⟨_, rfl⟩
      · exact ⟨_, rfl⟩

theorem Sound.switch_defined (hs : s.Sound) (hc : 0 < s.holders c) (j : ℕ) (job : Job)
    (dead : Bool) : ∃ s', s.switch j job c dead = some s' := by
  obtain ⟨o,ho,hpos⟩ := hs.real hc
  cases dead with
  | false => exact ⟨_, rfl⟩
  | true =>
    have hlooked : (s.looked job).objs c = some o := ho
    obtain ⟨s₁,h₁,hsame⟩ := decref_real hlooked hpos
    rw [ServerConns.switch, if_pos rfl]
    change ∃ s', ite (s.latest job = some c) _ (((s.looked job).decref c).bind _) = some s'
    split_ifs with hlat
    · exact ⟨_, rfl⟩
    · rw [h₁, Option.bind_some]
      rcases hl : s.latest job with _ | d
      · rw [show (subscript job.header.cltNonce s.slots).2 = none from hl]
        exact ⟨_, rfl⟩
      · have hne : d ≠ c := by
          rintro rfl
          exact hlat hl
        obtain ⟨o',ho',-⟩ := hs.real (holders_pos_of_slot (latest_some hl).2)
        obtain ⟨s₂,h₂⟩ := incref_real ((hsame d hne).trans ho')
        rw [show (subscript job.header.cltNonce s.slots).2 = some d from hl]
        dsimp only
        rw [h₂]
        exact ⟨_, rfl⟩

/-- `isdead()`. -/
def isdead (s : ServerConns) (c : ℕ) : Bool := (s.objs c).any ConnObj.dead

/-- The request does not ask for at-most-once, and its connection has died. -/
def orphaned (s : ServerConns) (job : Job) : Bool :=
  job.header.cltNonce = 0 && job.conn.any s.isdead

/-- No handler of such a request returns. -/
def answerable (s : ServerConns) : ConnEvent → Bool
  | .handled j => (s.jobs[j]?).all (fun job => !s.orphaned job)
  | _ => true

/-- The end of the handler leaves the job at the `send` on a connection that exists: the one the
request came on or, if that is dead, the latest of the client. Every entry of `conns_` has one. -/
structure Replied (s s' : ServerConns) (j : ℕ) (job : Job) : Prop where
  conn : ∃ d, (s'.jobs[j]?).map Job.conn = some (some d) ∧ (s'.objs d).isSome ∧
    if s.isdead job.arriving then s.Latest job.header.cltNonce d else d = job.arriving
  full : ∀ x ∈ s'.slots, x.2 ≠ none

theorem conn_toSend (hj : s.jobs[j]? = some job) (p : Option ℕ) :
    ((s.toSend j job p).jobs[j]?).map Job.conn = some p := by
  obtain ⟨hlt,-⟩ := List.getElem?_eq_some_iff.mp hj
  unfold toSend
  dsimp only
  rw [List.getElem?_set_self hlt]
  rfl

/-- After a null pointer was found. -/
theorem conn_null {s₁ : ServerConns} (hj : s.jobs[j]? = some job)
    (h₁ : (s.looked job).decref c = some s₁) :
    (({ s₁.toSend j job none with crashed := true } : ServerConns).jobs[j]?).map Job.conn =
      some none := by
  have hj₁ : s₁.jobs[j]? = some job := by
    rw [(decref_frame h₁).2]
    exact hj
  exact conn_toSend hj₁ none

theorem Sound.conn_real (hs : s.Sound) (h : (s.jobs[j]?).map Job.conn = some (some d)) :
    (s.objs d).isSome := by
  obtain ⟨job,hj,hd⟩ := Option.map_eq_some_iff.mp h
  obtain ⟨o,ho,-⟩ := hs.real (holders_pos_of_job (List.mem_of_getElem? hj) hd)
  rw [ho]
  rfl

/-- Only the requests of clients that ask for at-most-once have entries. -/
theorem Sound.not_orphaned (hs : s.Sound) (h : s.latest job = some d) : s.orphaned job = false := by
  have hused := (hs.filed _ _ (latest_some h).2).1
  have hne := (hs.spent _ _ hused).1
  simp [orphaned, hne]

theorem Sound.handled_iff (hs : s.Sound) (hlive : s.crashed = false)
    (hj : s.jobs[j]? = some job) (hst : job.stage = .handling) :
    ∃ s', s.step (.handled j) = some s' ∧ (s.Replied s' j job ↔ s.orphaned job = false) := by
  obtain ⟨c,hc,hsame⟩ := hs.placed hlive job (List.mem_of_getElem? hj)
  have harr : c = job.arriving := hsame (by rw [hst]; decide)
  have hheld := holders_pos_of_job (List.mem_of_getElem? hj) hc
  obtain ⟨o,ho,-⟩ := hs.real hheld
  have hdead : s.isdead c = o.dead := by
    unfold isdead
    rw [ho]
    rfl
  obtain ⟨s',hs'⟩ := hs.switch_defined hheld j job o.dead
  have hstep : s.step (.handled j) = some s' := by
    simp [step, move, jobAt, hlive, hj, hst, hc, ho, hs']
  have hsound := sound_step hs hstep
  refine ⟨s', hstep, ?_⟩
  rcases switch_cases hs' with ⟨hd,rfl⟩ | ⟨hd,hlat,rfl⟩ | ⟨hd,hlat,s₁,h₁,⟨hnull,rfl⟩
    | ⟨d,s₂,hl,h₂,rfl⟩⟩
  · -- the connection is alive
    have hconn := conn_toSend hj (some c)
    have hok : s.orphaned job = false := by simp [orphaned, hc, hdead, hd]
    refine iff_of_true ⟨⟨c, hconn, hsound.conn_real hconn, ?_⟩, hs.full hlive⟩ hok
    rw [← harr, hdead, hd]
    rfl
  · rw [(latest_some hlat).1] at *
    have hconn := conn_toSend hj (some c)
    refine iff_of_true ⟨⟨c, hconn, hsound.conn_real hconn, ?_⟩, hs.full hlive⟩
      (hs.not_orphaned hlat)
    rw [← harr, hdead, hd, if_pos rfl]
    exact hs.filed _ _ (latest_some hlat).2
  · -- no request of this client has an entry, so it does not ask for at-most-once
    have hnone := (latest_none hnull (hs.full hlive)).2
    have hzero : job.header.cltNonce = 0 := by
      by_contra hne
      have := hs.known job (List.mem_of_getElem? hj) hst hne
      rw [hnone] at this
      cases this
    refine iff_of_false ?_ (by simp [orphaned, hzero, hc, hdead, hd])
    rintro ⟨⟨d,hconn,-,-⟩,-⟩
    rw [conn_null hj h₁] at hconn
    cases hconn
  · have hsame := (latest_some hl).1
    rw [hsame] at h₁
    have hj₂ : s₂.jobs[j]? = some job := by
      rw [(incref_frame h₂).2, (decref_frame h₁).2]
      exact hj
    have hslots : s₂.slots = s.slots := by
      rw [(incref_frame h₂).1, (decref_frame h₁).1]
    have hconn := conn_toSend hj₂ (some d)
    refine iff_of_true ⟨⟨d, hconn, hsound.conn_real hconn, ?_⟩, ?_⟩ (hs.not_orphaned hl)
    · rw [← harr, hdead, hd, if_pos rfl]
      exact hs.filed _ _ (latest_some hl).2
    · intro x hx
      change x ∈ s₂.slots at hx
      rw [hslots] at hx
      exact hs.full hlive x hx

/-- The null pointer comes from nowhere else. -/
theorem crashed_step (hs : s.Sound) (hstep : s.step e = some s') (hok : s.answerable e = true) :
    s'.crashed = false := by
  obtain ⟨hlive,hm⟩ := step_moves hstep
  cases hm with
  | accept | die | refuse | goAhead | refused | pass => exact hlive
  | collect ho hc h | malformed hj hst hc hbad h | finish hj hst hc h =>
    obtain ⟨o,-,-,rfl⟩ := decref_eq h
    exact hlive
  | queue pdu ho h =>
    obtain ⟨o,-,rfl⟩ := incref_eq h
    exact hlive
  | drop pdu ho h₁ h₂ =>
    obtain ⟨o₁,-,rfl⟩ := incref_eq h₁
    obtain ⟨o₂,-,-,rfl⟩ := decref_eq h₂
    exact hlive
  | check stat hj hst hc hn h => exact (save_frame h).2.2.1.trans hlive
  | @handled j job c o _ hj hst hc ho hsw =>
    have hnot : s.orphaned job = false := by
      simp only [answerable, hj, Option.all_some] at hok
      simpa using hok
    obtain ⟨s'',hs'',hiff⟩ := hs.handled_iff hlive hj hst
    rw [hstep] at hs''
    cases hs''
    have hrep := hiff.mpr hnot
    rcases switch_cases hsw with ⟨-,rfl⟩ | ⟨-,-,rfl⟩ | ⟨-,-,s₁,h₁,⟨-,rfl⟩ | ⟨d,s₂,-,h₂,rfl⟩⟩
    · exact hlive
    · exact hlive
    · obtain ⟨⟨d,hconn,-,-⟩,-⟩ := hrep
      rw [conn_null hj h₁] at hconn
      cases hconn
    · obtain ⟨o₁,-,-,rfl⟩ := decref_eq h₁
      obtain ⟨o₂,-,rfl⟩ := incref_eq h₂
      exact hlive

end

/-- A server that has just started. -/
def init (nonce : UInt32) (procs : Int32 → Bool) (createTime : ℕ → ℕ × ℕ) : ServerConns :=
  { nonce := nonce, procs := procs, createTime := createTime }

section
variable {nonce : UInt32} {procs : Int32 → Bool} {createTime : ℕ → ℕ × ℕ} {es : List ConnEvent}
  {s : ServerConns}

theorem sound_init : (init nonce procs createTime).Sound := by
  refine ⟨?_, ?_, ?_, ?_, ?_, ?_⟩
  · intro c
    exact Int.le_refl 0
  · intro n c h
    cases h
  · intro n c h
    cases h
  · intro _ x hx
    cases hx
  · intro _ job hjob
    cases hjob
  · intro job hjob
    cases hjob

theorem sound_run (hrun : TraceSystem.run step (init nonce procs createTime) es = some s) :
    s.Sound :=
  TraceSystem.run_invariant (fun _ _ _ hs h => sound_step hs h) sound_init hrun

/-- As long as no handler of a request without at-most-once finds its connection dead, every job has
a connection that exists, no entry of `conns_` is null, and the next reply goes where it should;
exactly in that case it does not. -/
theorem reply_connections (hrun : TraceSystem.run step (init nonce procs createTime) es = some s)
    (hmeets : TraceSystem.Meets step (fun s e => s.answerable e = true)
      (init nonce procs createTime) es) :
    s.crashed = false ∧ (∀ job ∈ s.jobs, ∃ d, job.conn = some d ∧ (s.objs d).isSome) ∧
    (∀ x ∈ s.slots, x.2 ≠ none) ∧
    ∀ j job, s.jobs[j]? = some job → job.stage = .handling →
      ∃ s', s.step (.handled j) = some s' ∧ (s.Replied s' j job ↔ s.orphaned job = false) := by
  have hs := sound_run hrun
  have hlive : s.crashed = false := by
    have h := TraceSystem.Meets.invariant (I := fun s => s.Sound ∧ s.crashed = false)
      (fun _ _ _ hI hok h => ⟨sound_step hI.1 h, crashed_step hI.1 h hok⟩)
      ⟨sound_init, rfl⟩ hmeets hrun
    exact h.2
  refine ⟨hlive, ?_, hs.full hlive, ?_⟩
  · intro job hjob
    obtain ⟨d,hd,-⟩ := hs.placed hlive job hjob
    obtain ⟨o,ho,-⟩ := hs.real (holders_pos_of_job hjob hd)
    exact ⟨d, hd, by rw [ho]; rfl⟩
  · intro j job hj hst
    exact hs.handled_iff hlive hj hst

end

/-- A request of 24 bytes for `bind` with these nonces, which are below 256. -/
def bindPdu (cltNonce srvNonce : UInt8) : Unmarshall :=
  { buf := fun i => if i = 7 ∨ i = 11 then 1 else if i = 15 then cltNonce
      else if i = 19 then srvNonce else 0,
    sz := 24 }

/-- A request is retransmitted on a second connection, and the first one dies. -/
def twoConnections : List ConnEvent :=
  [.accept, .gotPdu 0 (bindPdu 5 0) true, .start 0, .check 0 .new, .accept,
    .gotPdu 1 (bindPdu 5 0) true, .start 1, .check 1 .inProgress, .finish 1, .die 0]

theorem reply_to_second :
    ∃ s s' job, TraceSystem.run step (init 7 (fun _ => false) (fun i => (i, 0))) twoConnections =
      some s ∧ s.isdead 0 = true ∧ s.step (.handled 0) = some s' ∧ s.Replied s' 0 job := by
  obtain ⟨s,hrun,hdead,hjob⟩ := TraceSystem.reaches_of_any step
    (fun s => s.isdead 0 = true ∧ (s.jobs[0]?).any (fun job =>
      job.stage = .handling ∧ s.orphaned job = false) = true)
    (init 7 (fun _ => false) (fun i => (i, 0))) twoConnections (by decide +kernel)
  obtain ⟨job,hj,hst⟩ := (Option.any_eq_true _ _).mp hjob
  obtain ⟨hst,hok⟩ := of_decide_eq_true hst
  obtain ⟨s',hs',hiff⟩ := (reply_connections hrun (by decide +kernel)).2.2.2 0 job hj hst
  exact ⟨s, s', job, hrun, hdead, hs', hiff.mpr hok⟩

/-- A request without at-most-once whose connection dies in the meantime: `conns_` gets an entry
with a null pointer, which is followed. -/
theorem reply_to_null :
    ∃ s, TraceSystem.run step (init 7 (fun _ => false) (fun i => (i, 0)))
      [.accept, .gotPdu 0 (bindPdu 0 0) true, .start 0, .check 0 .new, .die 0, .handled 0] =
        some s ∧ s.crashed = true ∧ (0, none) ∈ s.slots ∧ (s.jobs[0]?).map Job.conn = some none :=
  TraceSystem.reaches_of_any step
    (fun s => s.crashed = true ∧ (0, none) ∈ s.slots ∧ (s.jobs[0]?).map Job.conn = some none) _ _
    (by decide +kernel)

end ServerConns

end DisconnectedYfs.RPC
