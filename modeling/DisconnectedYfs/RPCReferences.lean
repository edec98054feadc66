import DisconnectedYfs.RPCServer

/-! The connection objects of a server (`rpcs::got_pdu`, `rpcs::dispatch`, `tcpsconn` and the
reference counts of `rpc/connection.cc`). Objects are numbered in the order of their creation, and
an object that was deleted is gone. Each step is what one thread does under one lock. What
`checkduplicate_and_update` finds is part of the step's label. -/
namespace DisconnectedYfs.RPC

/-- `refno_` and `dead_` of a `connection`. -/
structure ConnObj where
  refno : ℤ
  dead : Bool := false
deriving DecidableEq, Repr

/-- `connection::compare` of two creation times in seconds and microseconds. -/
def compareTime (a b : ℕ × ℕ) : ℤ :=
  if a.1 > b.1 then 1
  else if a.1 < b.1 then -1
  else if a.2 > b.2 then 1
  else if a.2 < b.2 then -1
  else 0

/-- Where a job is: in the queue of `dispatchpool_`, sending the answer to a request for another
instance, before the at-most-once tables, in the handler, at the `send` of a reply, or at the end
without one. -/
inductive Stage where
  | queued
  | refusing
  | accepted
  | handling
  | sending
  | leaving
deriving DecidableEq, Repr

/-- A `djob_t`, and the local variables of the `dispatch` that runs it: `conn` is `c`, and
`arriving` the connection that it was at first. -/
structure Job where
  conn : Option ℕ
  arriving : ℕ
  pdu : Unmarshall
  stage : Stage := .queued

def Job.header (job : Job) : ReqHeader := (Unmarshall.unpackReqHeader job.pdu).1

theorem header_congr {a b : Job} (h : a.pdu = b.pdu) : a.header = b.header := by
  unfold Job.header
  rw [h]

/-- `req.ok()` after `unpack_req_header`. -/
def Job.wellFormed (job : Job) : Bool := (Unmarshall.unpackReqHeader job.pdu).2.ok

theorem wellFormed_congr {a b : Job} (h : a.pdu = b.pdu) : a.wellFormed = b.wellFormed := by
  unfold Job.wellFormed
  rw [h]

/-- `slots` is `rpcs::conns_`, whose values can be null, and `table` is `tcpsconn::conns_`. `used`
records which connections the requests of a client came on. After a null pointer was followed
nothing runs any more. -/
structure ServerConns where
  nonce : UInt32
  procs : Int32 → Bool
  createTime : ℕ → ℕ × ℕ
  objs : ℕ → Option ConnObj := fun _ => none
  next : ℕ := 0
  table : List ℕ := []
  slots : List (UInt32 × Option ℕ) := []
  jobs : List Job := []
  used : List (UInt32 × ℕ) := []
  crashed : Bool := false

inductive ConnEvent where
  | accept
  | collect (c : ℕ)
  | die (c : ℕ)
  | gotPdu (c : ℕ) (pdu : Unmarshall) (succ : Bool)
  | start (j : ℕ)
  | refused (j : ℕ)
  | check (j : ℕ) (stat : RpcState)
  | handled (j : ℕ)
  | finish (j : ℕ)

/-- `conns_[n] = p`. -/
def assign (n : UInt32) (p : Option ℕ) : List (UInt32 × Option ℕ) → List (UInt32 × Option ℕ)
  | [] => [(n, p)]
  | (m, q) :: l => if m = n then (n, p) :: l else (m, q) :: assign n p l

/-- `conns_[n]` as a value: a key that is not there is made, with a null pointer. -/
def subscript (n : UInt32) (l : List (UInt32 × Option ℕ)) :
    List (UInt32 × Option ℕ) × Option ℕ :=
  match l.lookup n with
  | some p => (l, p)
  | none => (assign n none l, none)

namespace ServerConns

/-- An object that is not there cannot be used. -/
def incref (c : ℕ) (s : ServerConns) : Option ServerConns :=
  (s.objs c).map (fun o =>
    { s with objs := Function.update s.objs c (some { o with refno := o.refno+1 }) })

/-- The last reference to a dead connection deletes it. -/
def decref (c : ℕ) (s : ServerConns) : Option ServerConns :=
  match s.objs c with
  | none => none
  | some o =>
    let o := { o with refno := o.refno-1 }
    if o.refno < 0 then none
    else
      some { s with objs :=
        Function.update s.objs c (if o.refno = 0 ∧ o.dead then none else some o) }

/-- The latest good connection to the client is saved. -/
def save (n : UInt32) (c : ℕ) (s : ServerConns) : Option ServerConns :=
  match s.slots.lookup n with
  | none => (s.incref c).map (fun s => { s with slots := assign n (some c) s.slots })
  | some none => none
  | some (some d) =>
    if (s.objs d).isNone then none
    else if compareTime (s.createTime d) (s.createTime c) < 0 then
      (s.decref d).bind (fun s => (s.incref c).map (fun s =>
        { s with slots := assign n (some c) s.slots }))
    else some s

/-- The job goes on to its `send`, on the connection `p`. -/
def toSend (j : ℕ) (job : Job) (p : Option ℕ) (s : ServerConns) : ServerConns :=
  { s with jobs := s.jobs.set j { job with conn := p, stage := .sending } }

/-- `c` becomes the latest connection to the client if it is dead. -/
def switch (j : ℕ) (job : Job) (c : ℕ) (dead : Bool) (s : ServerConns) : Option ServerConns :=
  if dead then
    let latest := subscript job.header.cltNonce s.slots
    let s := { s with slots := latest.1 }
    if latest.2 = some c then some (s.toSend j job (some c))
    else
      (s.decref c).bind (fun s =>
        match latest.2 with
        | none => some { s.toSend j job none with crashed := true }
        | some d => (s.incref d).map (toSend j job (some d)))
  else some (s.toSend j job (some c))

/-- A job at the given stage and its connection. -/
def jobAt (s : ServerConns) (j : ℕ) (ok : Stage → Bool) : Option (Job × ℕ) :=
  (s.jobs[j]?).bind (fun job => if ok job.stage then job.conn.map (fun c => (job, c)) else none)

/-- The request is meant for another instance of the server. -/
def refuses (s : ServerConns) (h : ReqHeader) : Bool := h.srvNonce ≠ 0 ∧ h.srvNonce ≠ s.nonce

/-- Where the answer of `checkduplicate_and_update` leads. -/
def afterCheck : RpcState → Stage
  | .new => .handling
  | .inProgress => .leaving
  | .done _ _ | .forgotten => .sending

/-- A thread's next step; `none` is a failed `VERIFY` or the use of what is not there. The loop of
`process_accept` that collects dead connections may run at any time. -/
def move (s : ServerConns) : ConnEvent → Option ServerConns
  | .accept =>
    if (s.objs s.next).isSome then none
    else some { s with
      objs := Function.update s.objs s.next (some { refno := 1 }), next := s.next+1,
      table := s.next :: s.table }
  | .collect c =>
    match s.objs c with
    | some ⟨1, true⟩ =>
      if c ∈ s.table then (s.decref c).map (fun s => { s with table := s.table.erase c }) else none
    | _ => none
  | .die c => (s.objs c).map (fun o =>
      { s with objs := Function.update s.objs c (some { o with dead := true }) })
  | .gotPdu c pdu succ =>
    match s.objs c with
    | some ⟨_, false⟩ => (s.incref c).bind (fun s =>
        if succ then
          some { s with jobs := s.jobs ++ [{ conn := some c, arriving := c, pdu := pdu }] }
        else s.decref c)
    | _ => none
  | .start j => (s.jobAt j (· = .queued)).bind (fun (job, c) =>
      if !job.wellFormed then (s.decref c).map (fun s => { s with jobs := s.jobs.eraseIdx j })
      else if s.refuses job.header then
        some { s with jobs := s.jobs.set j { job with stage := .refusing } }
      else if !(job.header.proc = bindProc ∨ s.procs job.header.proc) then none
      else some { s with jobs := s.jobs.set j { job with stage := .accepted } })
  | .refused j => (s.jobAt j (· = .refusing)).bind (fun _ =>
      some { s with jobs := s.jobs.eraseIdx j })
  | .check j stat => (s.jobAt j (· = .accepted)).bind (fun (job, c) =>
      if job.header.cltNonce ≠ 0 then
        (s.save job.header.cltNonce c).map (fun s => { s with
          used := (job.header.cltNonce, c) :: s.used,
          jobs := s.jobs.set j { job with stage := afterCheck stat } })
      else if stat = .new then
        some { s with jobs := s.jobs.set j { job with stage := .handling } }
      else none)
  | .handled j => (s.jobAt j (· = .handling)).bind (fun (job, c) =>
      (s.objs c).bind (fun o => s.switch j job c o.dead))
  | .finish j => (s.jobAt j (fun stage => stage = .sending ∨ stage = .leaving)).bind
      (fun (_, c) => (s.decref c).map (fun s => { s with jobs := s.jobs.eraseIdx j }))

def step (s : ServerConns) (e : ConnEvent) : Option ServerConns :=
  if s.crashed then none else s.move e

/-- `ref()`; an object that is not there has no references. -/
def refno (s : ServerConns) (c : ℕ) : ℤ := ((s.objs c).map ConnObj.refno).getD 0

/-- The holders of a connection: the table of `tcpsconn`, the entries of `conns_`, and the jobs. -/
def holders (s : ServerConns) (c : ℕ) : ℤ :=
  s.table.count c+s.slots.countP (·.2 = some c)+s.jobs.countP (·.conn = some c)

/-- The steps, one for each way through the code. -/
inductive Moves (s : ServerConns) : ConnEvent → ServerConns → Prop
  | accept (hnew : s.objs s.next = none) : Moves s .accept { s with
      objs := Function.update s.objs s.next (some { refno := 1 }), next := s.next+1,
      table := s.next :: s.table }
  | collect {c s₁} (ho : s.objs c = some ⟨1, true⟩) (hc : c ∈ s.table)
      (h : s.decref c = some s₁) : Moves s (.collect c) { s₁ with table := s₁.table.erase c }
  | die {c o} (ho : s.objs c = some o) : Moves s (.die c)
      { s with objs := Function.update s.objs c (some { o with dead := true }) }
  | queue {c r s₁} (pdu : Unmarshall) (ho : s.objs c = some ⟨r, false⟩)
      (h : s.incref c = some s₁) : Moves s (.gotPdu c pdu true)
      { s₁ with jobs := s₁.jobs ++ [{ conn := some c, arriving := c, pdu := pdu }] }
  | drop {c r s₁ s'} (pdu : Unmarshall) (ho : s.objs c = some ⟨r, false⟩)
      (h₁ : s.incref c = some s₁) (h₂ : s₁.decref c = some s') : Moves s (.gotPdu c pdu false) s'
  | malformed {j job c s₁} (hj : s.jobs[j]? = some job) (hst : job.stage = .queued)
      (hc : job.conn = some c) (hbad : job.wellFormed = false) (h : s.decref c = some s₁) :
      Moves s (.start j) { s₁ with jobs := s₁.jobs.eraseIdx j }
  | refuse {j job c} (hj : s.jobs[j]? = some job) (hst : job.stage = .queued)
      (hc : job.conn = some c) (hok : job.wellFormed = true) (hr : s.refuses job.header = true) :
      Moves s (.start j) { s with jobs := s.jobs.set j { job with stage := .refusing } }
  | goAhead {j job c} (hj : s.jobs[j]? = some job) (hst : job.stage = .queued)
      (hc : job.conn = some c) (hok : job.wellFormed = true) (hr : s.refuses job.header = false) :
      Moves s (.start j) { s with jobs := s.jobs.set j { job with stage := .accepted } }
  | refused {j job c} (hj : s.jobs[j]? = some job) (hst : job.stage = .refusing)
      (hc : job.conn = some c) : Moves s (.refused j) { s with jobs := s.jobs.eraseIdx j }
  | check {j job c s₁} (stat : RpcState) (hj : s.jobs[j]? = some job)
      (hst : job.stage = .accepted) (hc : job.conn = some c) (hn : job.header.cltNonce ≠ 0)
      (h : s.save job.header.cltNonce c = some s₁) : Moves s (.check j stat) { s₁ with
        used := (job.header.cltNonce, c) :: s₁.used,
        jobs := s₁.jobs.set j { job with stage := afterCheck stat } }
  | pass {j job c} (hj : s.jobs[j]? = some job) (hst : job.stage = .accepted)
      (hc : job.conn = some c) (hn : job.header.cltNonce = 0) : Moves s (.check j .new)
      { s with jobs := s.jobs.set j { job with stage := .handling } }
  | handled {j job c o s'} (hj : s.jobs[j]? = some job) (hst : job.stage = .handling)
      (hc : job.conn = some c) (ho : s.objs c = some o) (h : s.switch j job c o.dead = some s') :
      Moves s (.handled j) s'
  | finish {j job c s₁} (hj : s.jobs[j]? = some job)
      (hst : job.stage = .sending ∨ job.stage = .leaving) (hc : job.conn = some c)
      (h : s.decref c = some s₁) : Moves s (.finish j) { s₁ with jobs := s₁.jobs.eraseIdx j }

theorem jobAt_eq {s : ServerConns} {j c : ℕ} {job : Job} {ok : Stage → Bool}
    (h : s.jobAt j ok = some (job, c)) :
    s.jobs[j]? = some job ∧ ok job.stage = true ∧ job.conn = some c := by
  obtain ⟨job',hjob,h⟩ := Option.bind_eq_some_iff.mp h
  split_ifs at h with hok
  obtain ⟨c',hc,hpair⟩ := Option.map_eq_some_iff.mp h
  cases hpair
  exact ⟨hjob, hok, hc⟩

theorem step_moves {s s' : ServerConns} {e : ConnEvent} (h : s.step e = some s') :
    s.crashed = false ∧ Moves s e s' := by
  unfold step at h
  split_ifs at h with hcrash
  refine ⟨Bool.not_eq_true _ ▸ hcrash, ?_⟩
  cases e with
  | accept =>
    simp only [move] at h
    split_ifs at h with hnew
    cases h
    exact .accept (Option.not_isSome_iff_eq_none.mp hnew)
  | collect c =>
    simp only [move] at h
    split at h
    · rename_i ho
      split_ifs at h with hc
      obtain ⟨s₁,h₁,rfl⟩ := Option.map_eq_some_iff.mp h
      exact .collect ho hc h₁
    · cases h
  | die c =>
    obtain ⟨o,ho,rfl⟩ := Option.map_eq_some_iff.mp h
    exact .die ho
  | gotPdu c pdu succ =>
    simp only [move] at h
    split at h
    · rename_i r ho
      obtain ⟨s₁,h₁,h⟩ := Option.bind_eq_some_iff.mp h
      cases succ with
      | true =>
        cases h
        exact .queue pdu ho h₁
      | false => exact .drop pdu ho h₁ h
    · cases h
  | start j =>
    obtain ⟨⟨job,c⟩,hjob,h⟩ := Option.bind_eq_some_iff.mp h
    obtain ⟨hj,hst,hc⟩ := jobAt_eq hjob
    have hst' : job.stage = .queued := of_decide_eq_true hst
    dsimp only at h
    split_ifs at h with hbad href hproc
    · obtain ⟨s₁,h₁,rfl⟩ := Option.map_eq_some_iff.mp h
      exact .malformed hj hst' hc (by simpa using hbad) h₁
    · cases h
      exact .refuse hj hst' hc (by simpa using hbad) href
    · cases h
      exact .goAhead hj hst' hc (by simpa using hbad) (Bool.not_eq_true _ ▸ href)
  | refused j =>
    obtain ⟨⟨job,c⟩,hjob,h⟩ := Option.bind_eq_some_iff.mp h
    obtain ⟨hj,hst,hc⟩ := jobAt_eq hjob
    cases h
    exact .refused hj (of_decide_eq_true hst) hc
  | check j stat =>
    obtain ⟨⟨job,c⟩,hjob,h⟩ := Option.bind_eq_some_iff.mp h
    obtain ⟨hj,hst,hc⟩ := jobAt_eq hjob
    have hst' : job.stage = .accepted := of_decide_eq_true hst
    dsimp only at h
    split_ifs at h with hn hnew
    · obtain ⟨s₁,h₁,rfl⟩ := Option.map_eq_some_iff.mp h
      exact .check stat hj hst' hc hn h₁
    · cases h
      subst hnew
      exact .pass hj hst' hc (not_not.mp hn)
  | handled j =>
    obtain ⟨⟨job,c⟩,hjob,h⟩ := Option.bind_eq_some_iff.mp h
    obtain ⟨hj,hst,hc⟩ := jobAt_eq hjob
    obtain ⟨o,ho,h⟩ := Option.bind_eq_some_iff.mp h
    exact .handled hj (of_decide_eq_true hst) hc ho h
  | finish j =>
    obtain ⟨⟨job,c⟩,hjob,h⟩ := Option.bind_eq_some_iff.mp h
    obtain ⟨hj,hst,hc⟩ := jobAt_eq hjob
    obtain ⟨s₁,h₁,rfl⟩ := Option.map_eq_some_iff.mp h
    exact .finish hj (of_decide_eq_true hst) hc h₁

end ServerConns

end DisconnectedYfs.RPC
