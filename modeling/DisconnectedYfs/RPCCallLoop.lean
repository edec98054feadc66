import DisconnectedYfs.RPCReferences
import DisconnectedYfs.RPCTimeouts
import Mathlib.Data.List.TakeWhile

/-! The threads of a client inside `call1`, `cancel` and the destructor of `rpcc` (`rpc/rpc.cc`),
and the connections they share. Each step is what one thread does under one lock. The xids and the
contents of the replies are in `Rpcc`; here a reply is an answer to any call, and the test whether
the client is bound is over. -/
namespace DisconnectedYfs.RPC

/-- `rpcc::to_min`. -/
def toMin : ℤ := 1000

/-- `rpcc::to_max`. -/
def toMax : ℤ := 120000

def cancelFailure : Int32 := -7

/-- The places in `call1`: before the clock is read, at `get_refconn`, at `send`, at the test of the
final deadline, at the wait for a reply, in its loop with a time that the wait rejects, at the test
whether to send again, behind the loop, at the last `decref`, and outside. -/
inductive CallPc where
  | starting
  | connecting
  | sending
  | arming
  | waiting
  | spinning
  | looking
  | leaving
  | dropping
  | returned
deriving DecidableEq, Repr

/-- The local variables of a call, and its `caller` in `reply`, which is empty until it is `done`.
`begun`, `limit`, `rounds` and `sent` record when the call read the clock, its timeout, how often it
has begun to wait, and the connections that took its request. -/
structure LoopCall where
  limit : ℤ
  pc : CallPc := .starting
  ch : Option ℕ := none
  currTo : ℤ := toMin
  next : Timespec := ⟨0, 0⟩
  final : Timespec := ⟨0, 0⟩
  reply : Option Int32 := none
  begun : Timespec := ⟨0, 0⟩
  rounds : ℕ := 0
  sent : List ℕ := []
deriving DecidableEq, Repr

/-- The call is in `calls_`. -/
def LoopCall.registered (call : LoopCall) : Bool := call.pc ≠ .dropping ∧ call.pc ≠ .returned

/-- What `call1` returns. -/
def LoopCall.result (call : LoopCall) : Int32 := call.reply.getD timeoutFailure

/-- `cancel` at a caller. -/
def LoopCall.fail (call : LoopCall) : LoopCall :=
  if call.registered then { call with reply := some cancelFailure } else call

/-- A thread in `cancel`: asleep on `destroy_wait_c_`, signalled, or outside. -/
inductive CancelPc where
  | sleeping
  | woken
  | returned
deriving DecidableEq, Repr

/-- Connections are numbered in the order of their creation; one that was deleted is gone. Once
`jammed` a thread holds `m_` and waits for the lock of a `caller` that is never given back. `dupReq`
is the call whose request `dup_req_` holds, and `dups` are the requests that were sent from there,
as call and connection. -/
structure CallLoop where
  retrans : Bool
  clock : Timespec
  objs : ℕ → Option ConnObj := fun _ => none
  nextConn : ℕ := 0
  chan : Option ℕ := none
  destroyWait : Bool := false
  calls : List LoopCall := []
  cancels : List CancelPc := []
  jammed : Bool := false
  destroyed : Bool := false
  lossytest : Bool := false
  dupReq : Option ℕ := none
  dups : List (ℕ × ℕ) := []

/-- A step names the call by its place in the list. `connects` is whether `connect_to_dst` succeeds,
and `canceller` the thread that a signal wakes. -/
inductive LoopEvent where
  | tick (now : Timespec)
  | die (d : ℕ)
  | enter (limit : ℤ)
  | start (c : ℕ)
  | refconn (c : ℕ) (connects : Bool)
  | resend (c : ℕ)
  | send (c : ℕ)
  | arm (c : ℕ)
  | spin (c : ℕ)
  | timeout (c : ℕ)
  | wake (c : ℕ)
  | look (c : ℕ)
  | leave (c : ℕ) (canceller : ℕ)
  | drop (c : ℕ)
  | reply (c : ℕ) (ret : Int32)
  | cancel
  | recheck (k : ℕ)
  | destroy
deriving DecidableEq, Repr

/-- `incref`; an object that is not there cannot be used. -/
def increfObj (d : ℕ) (objs : ℕ → Option ConnObj) : Option (ℕ → Option ConnObj) :=
  (objs d).map (fun o => Function.update objs d (some { o with refno := o.refno+1 }))

/-- `decref`: the last reference to a dead connection deletes it. -/
def decrefObj (d : ℕ) (objs : ℕ → Option ConnObj) : Option (ℕ → Option ConnObj) :=
  (objs d).bind (fun o =>
    let o := { o with refno := o.refno-1 }
    if o.refno < 0 then none
    else some (Function.update objs d (if o.refno = 0 ∧ o.dead then none else some o)))

/-- `if(ch) ch->decref()`. -/
def releaseObj (ch : Option ℕ) (objs : ℕ → Option ConnObj) : Option (ℕ → Option ConnObj) :=
  match ch with
  | none => some objs
  | some d => decrefObj d objs

/-- `connection::closeconn`. -/
def closeObj (d : ℕ) (objs : ℕ → Option ConnObj) : Option (ℕ → Option ConnObj) :=
  (objs d).map (fun o => Function.update objs d (some { o with dead := true }))

/-- A time that `pthread_cond_timedwait` accepts. -/
def Timespec.valid (t : Timespec) : Bool := 0 ≤ t.tv_nsec ∧ t.tv_nsec < 1000000000

namespace CallLoop

def setCall (c : ℕ) (call : LoopCall) (s : CallLoop) : CallLoop :=
  { s with calls := s.calls.set c call }

/-- The call, if it is at the place. -/
def callAt (s : CallLoop) (c : ℕ) (pc : CallPc) : Option LoopCall :=
  (s.calls[c]?).bind (fun call => if call.pc = pc then some call else none)

/-- `chan_ = connect_to_dst(...)`. -/
def connect (connects : Bool) (s : CallLoop) : CallLoop :=
  if connects then
    { s with
      objs := Function.update s.objs s.nextConn (some { refno := 1 })
      nextConn := s.nextConn+1
      chan := some s.nextConn }
  else { s with chan := none }

/-- The first part of `get_refconn`: a dead `chan_` is replaced. -/
def refresh (connects : Bool) (s : CallLoop) : Option CallLoop :=
  match s.chan with
  | none => some (s.connect connects)
  | some d => (s.objs d).bind (fun o =>
      if o.dead then
        (decrefObj d s.objs).map (fun objs => connect connects { s with objs := objs })
      else some s)

/-- The second part: the reference `ch` moves to `chan_`, unless that is null. -/
def moveRef (ch : Option ℕ) (s : CallLoop) : Option (CallLoop × Option ℕ) :=
  match s.chan with
  | none => some (s, ch)
  | some d => (releaseObj ch s.objs).bind (fun objs =>
      (increfObj d objs).map (fun objs => ({ s with objs := objs }, some d)))

def getRefconn (ch : Option ℕ) (connects : Bool) (s : CallLoop) : Option (CallLoop × Option ℕ) :=
  (s.refresh connects).bind (moveRef ch)

/-- `!ch || ch->isdead()`. -/
def lost (s : CallLoop) (ch : Option ℕ) : Option Bool :=
  match ch with
  | none => some true
  | some d => (s.objs d).map ConnObj.dead

/-- `pthread_cond_signal(&destroy_wait_c_)`. -/
def signal (k : ℕ) (s : CallLoop) : Option CallLoop :=
  if s.cancels.any (· = .sleeping) then
    if s.cancels[k]? = some .sleeping then some { s with cancels := s.cancels.set k .woken }
    else none
  else some s

/-- `ca.done && lossytest_`: the call takes `m_` once more before it returns. -/
def keeps (s : CallLoop) (call : LoopCall) : Bool := call.reply.isSome && s.lossytest

/-- `dup_req_` after call `c`: it takes the request of a call that is done, if it has none. -/
def keepDup (s : CallLoop) (c : ℕ) (call : LoopCall) : Option ℕ :=
  if s.keeps call && s.dupReq.isNone then some c else s.dupReq

/-- The loop of `cancel` over `calls_`. It goes no further than to a caller whose lock is not given
back. -/
def failCalls (calls : List LoopCall) : List LoopCall :=
  (calls.takeWhile (·.pc ≠ .spinning)).map LoopCall.fail ++ calls.dropWhile (·.pc ≠ .spinning)

/-- A thread's next step; `none` is a failed `VERIFY`, the use of what is not there or a number that
overflows, or a step that no thread can take. -/
def move (s : CallLoop) : LoopEvent → Option CallLoop
  | .tick now => some { s with clock := now }
  | .die d => (closeObj d s.objs).map (fun objs => { s with objs := objs })
  | .enter limit =>
    if s.jammed then none
    else if s.destroyWait then
      some { s with calls := s.calls ++
        [{ limit := limit, pc := .returned, reply := some cancelFailure }] }
    else some { s with calls := s.calls ++ [{ limit := limit }] }
  | .start c => (s.callAt c .starting).bind (fun call =>
      (addTimespec s.clock call.limit).map (fun final =>
        s.setCall c { call with pc := .connecting, begun := s.clock, final := final }))
  | .refconn c connects => (s.callAt c .connecting).bind (fun call =>
      (s.getRefconn call.ch connects).map (fun r =>
        r.1.setCall c { call with pc := .sending, ch := r.2 }))
  | .resend c =>
    -- the acknowledged xids, which decide whether this happens, are in `Rpcc`
    if s.jammed then none
    else (s.callAt c .sending).bind (fun call => call.ch.bind (fun d => s.dupReq.bind (fun j =>
      (s.objs d).map (fun o =>
        { s with dupReq := none, dups := if o.dead then s.dups else (j, d) :: s.dups }))))
  | .send c => (s.callAt c .sending).bind (fun call =>
      match call.ch with
      | none => some (s.setCall c { call with pc := .arming })
      | some d => (s.objs d).map (fun o =>
          -- a dead connection takes nothing
          if o.dead then s.setCall c { call with pc := .arming }
          else s.setCall c { call with pc := .arming, sent := d :: call.sent }))
  | .arm c => (s.callAt c .arming).bind (fun call =>
      if call.final.tv_sec = 0 then some (s.setCall c { call with pc := .leaving })
      else
        (addTimespec s.clock call.currTo).map (fun next =>
          s.setCall c { call with
            pc := .waiting
            next := (nextDeadline next call.final).1
            final := (nextDeadline next call.final).2
            rounds := call.rounds+1 }))
  | .spin c => (s.callAt c .waiting).bind (fun call =>
      if call.reply = none ∧ !call.next.valid then some (s.setCall c { call with pc := .spinning })
      else none)
  | .timeout c => (s.callAt c .waiting).bind (fun call =>
      if call.reply = none ∧ call.next.valid ∧ call.next.instant ≤ s.clock.instant then
        some (s.setCall c { call with pc := .looking })
      else none)
  | .wake c => (s.callAt c .waiting).bind (fun call =>
      if call.reply.isSome then some (s.setCall c { call with pc := .leaving }) else none)
  | .look c => (s.callAt c .looking).bind (fun call =>
      (s.lost call.ch).bind (fun lost =>
        if call.currTo*2 < 2^31 then
          some (s.setCall c { call with
            pc := if s.retrans && lost then .connecting else .arming
            currTo := call.currTo*2 })
        else none))
  | .leave c k =>
    if s.jammed then none
    else (s.callAt c .leaving).bind (fun call =>
      let s := s.setCall c { call with pc := .dropping }
      if s.destroyWait then s.signal k else some s)
  | .drop c => (s.callAt c .dropping).bind (fun call =>
      if s.jammed && s.keeps call then none
      else
        (releaseObj call.ch s.objs).map (fun objs =>
          { s with objs := objs, dupReq := s.keepDup c call }.setCall c
            { call with pc := .returned, ch := none }))
  | .reply c ret =>
    if s.jammed then none
    else (s.calls[c]?).bind (fun call =>
      if call.pc = .spinning then some { s with jammed := true }
      else if call.registered ∧ call.reply = none then
        some (s.setCall c { call with reply := some ret })
      else some s)
  | .cancel =>
    if s.jammed then none
    else if s.calls.any (·.pc = .spinning) then
      some { s with calls := failCalls s.calls, jammed := true }
    else if s.calls.any LoopCall.registered then
      some { s with
        calls := failCalls s.calls, destroyWait := true, cancels := s.cancels ++ [.sleeping] }
    else some { s with cancels := s.cancels ++ [.returned] }
  | .recheck k =>
    if s.jammed then none
    else if s.cancels[k]? = some .woken then
      if s.calls.any LoopCall.registered then
        some { s with destroyWait := true, cancels := s.cancels.set k .sleeping }
      else some { s with cancels := s.cancels.set k .returned }
    else none
  | .destroy =>
    if s.calls.all (·.pc = .returned) ∧ s.cancels.all (· = .returned) ∧ !s.jammed then
      match s.chan with
      | none => some { s with destroyed := true }
      | some d => ((closeObj d s.objs).bind (decrefObj d)).map (fun objs =>
          { s with objs := objs, chan := none, destroyed := true })
    else none

/-- The destructor is called when no thread is inside or comes later. -/
def step (s : CallLoop) (e : LoopEvent) : Option CallLoop :=
  if s.destroyed then none else s.move e

def init (retrans : Bool) (clock : Timespec) (lossytest : Bool := false) : CallLoop :=
  { retrans := retrans, clock := clock, lossytest := lossytest }

/-- The steps, one for each way through the code. -/
inductive Moves (s : CallLoop) : LoopEvent → CallLoop → Prop
  | tick (now : Timespec) : Moves s (.tick now) { s with clock := now }
  | die {d objs} (h : closeObj d s.objs = some objs) : Moves s (.die d) { s with objs := objs }
  | enter (limit : ℤ) (hj : s.jammed = false) (hw : s.destroyWait = false) :
      Moves s (.enter limit) { s with calls := s.calls ++ [{ limit := limit }] }
  | refuse (limit : ℤ) (hj : s.jammed = false) (hw : s.destroyWait = true) :
      Moves s (.enter limit) { s with calls := s.calls ++
        [{ limit := limit, pc := .returned, reply := some cancelFailure }] }
  | start {c call final} (hc : s.calls[c]? = some call) (hpc : call.pc = .starting)
      (hfinal : addTimespec s.clock call.limit = some final) : Moves s (.start c)
        (s.setCall c { call with pc := .connecting, begun := s.clock, final := final })
  | refconn {c call connects s₁ ch} (hc : s.calls[c]? = some call) (hpc : call.pc = .connecting)
      (h : s.getRefconn call.ch connects = some (s₁, ch)) : Moves s (.refconn c connects)
        (s₁.setCall c { call with pc := .sending, ch := ch })
  | resend {c call d j lost} (hj : s.jammed = false) (hc : s.calls[c]? = some call)
      (hpc : call.pc = .sending) (hch : call.ch = some d) (hdup : s.dupReq = some j)
      (hlost : s.lost call.ch = some lost) : Moves s (.resend c)
        { s with dupReq := none, dups := if lost then s.dups else (j, d) :: s.dups }
  | unsent {c call} (hc : s.calls[c]? = some call) (hpc : call.pc = .sending)
      (hlost : s.lost call.ch = some true) :
      Moves s (.send c) (s.setCall c { call with pc := .arming })
  | sent {c call d} (hc : s.calls[c]? = some call) (hpc : call.pc = .sending)
      (hch : call.ch = some d) (hlive : s.lost call.ch = some false) :
      Moves s (.send c) (s.setCall c { call with pc := .arming, sent := d :: call.sent })
  | expire {c call} (hc : s.calls[c]? = some call) (hpc : call.pc = .arming)
      (hfinal : call.final.tv_sec = 0) :
      Moves s (.arm c) (s.setCall c { call with pc := .leaving })
  | arm {c call next} (hc : s.calls[c]? = some call) (hpc : call.pc = .arming)
      (hfinal : call.final.tv_sec ≠ 0) (hnext : addTimespec s.clock call.currTo = some next) :
      Moves s (.arm c) (s.setCall c { call with
        pc := .waiting
        next := (nextDeadline next call.final).1
        final := (nextDeadline next call.final).2
        rounds := call.rounds+1 })
  | spin {c call} (hc : s.calls[c]? = some call) (hpc : call.pc = .waiting)
      (hr : call.reply = none) (hv : call.next.valid = false) :
      Moves s (.spin c) (s.setCall c { call with pc := .spinning })
  | timeout {c call} (hc : s.calls[c]? = some call) (hpc : call.pc = .waiting)
      (hr : call.reply = none) (hv : call.next.valid = true)
      (hle : call.next.instant ≤ s.clock.instant) :
      Moves s (.timeout c) (s.setCall c { call with pc := .looking })
  | wake {c call} (hc : s.calls[c]? = some call) (hpc : call.pc = .waiting)
      (hr : call.reply.isSome = true) :
      Moves s (.wake c) (s.setCall c { call with pc := .leaving })
  | look {c call lost} (hc : s.calls[c]? = some call) (hpc : call.pc = .looking)
      (hlost : s.lost call.ch = some lost) (hto : call.currTo*2 < 2^31) :
      Moves s (.look c) (s.setCall c { call with
        pc := if s.retrans && lost then .connecting else .arming
        currTo := call.currTo*2 })
  | leave {c call} (k : ℕ) (hj : s.jammed = false) (hc : s.calls[c]? = some call)
      (hpc : call.pc = .leaving) (hn : s.destroyWait = true → CancelPc.sleeping ∉ s.cancels) :
      Moves s (.leave c k) (s.setCall c { call with pc := .dropping })
  | leaveSignal {c call k} (hj : s.jammed = false) (hc : s.calls[c]? = some call)
      (hpc : call.pc = .leaving) (hw : s.destroyWait = true)
      (hk : s.cancels[k]? = some .sleeping) : Moves s (.leave c k)
        { s.setCall c { call with pc := .dropping } with cancels := s.cancels.set k .woken }
  | drop {c call objs} (hc : s.calls[c]? = some call) (hpc : call.pc = .dropping)
      (h : releaseObj call.ch s.objs = some objs) : Moves s (.drop c)
        ({ s with objs := objs, dupReq := s.keepDup c call }.setCall c
          { call with pc := .returned, ch := none })
  | jam {c call} (ret : Int32) (hj : s.jammed = false) (hc : s.calls[c]? = some call)
      (hpc : call.pc = .spinning) : Moves s (.reply c ret) { s with jammed := true }
  | reply {c call} (ret : Int32) (hj : s.jammed = false) (hc : s.calls[c]? = some call)
      (hpc : call.pc ≠ .spinning) (hreg : call.registered = true) (hr : call.reply = none) :
      Moves s (.reply c ret) (s.setCall c { call with reply := some ret })
  | late {c} (ret : Int32) : Moves s (.reply c ret) s
  | cancelJam (hj : s.jammed = false) (hspin : ∃ call ∈ s.calls, call.pc = .spinning) :
      Moves s .cancel
      { s with calls := failCalls s.calls, jammed := true }
  | cancel (hj : s.jammed = false) (hspin : ∀ call ∈ s.calls, call.pc ≠ .spinning)
      (hreg : ∃ call ∈ s.calls, call.registered = true) : Moves s .cancel
      { s with
        calls := s.calls.map LoopCall.fail, destroyWait := true
        cancels := s.cancels ++ [.sleeping] }
  | cancelIdle (hj : s.jammed = false) (hreg : ∀ call ∈ s.calls, call.registered = false) :
      Moves s .cancel { s with cancels := s.cancels ++ [.returned] }
  | sleepAgain {k} (hj : s.jammed = false) (hk : s.cancels[k]? = some .woken)
      (hreg : ∃ call ∈ s.calls, call.registered = true) : Moves s (.recheck k)
      { s with destroyWait := true, cancels := s.cancels.set k .sleeping }
  | cancelled {k} (hj : s.jammed = false) (hk : s.cancels[k]? = some .woken)
      (hreg : ∀ call ∈ s.calls, call.registered = false) : Moves s (.recheck k)
      { s with cancels := s.cancels.set k .returned }
  | destroyNone (hcalls : ∀ call ∈ s.calls, call.pc = .returned) (hchan : s.chan = none) :
      Moves s .destroy { s with destroyed := true }
  | destroy {d objs objs'} (hcalls : ∀ call ∈ s.calls, call.pc = .returned)
      (hchan : s.chan = some d) (h : closeObj d s.objs = some objs)
      (h' : decrefObj d objs = some objs') :
      Moves s .destroy { s with objs := objs', chan := none, destroyed := true }

theorem callAt_eq {s : CallLoop} {c : ℕ} {pc : CallPc} {call : LoopCall}
    (h : s.callAt c pc = some call) : s.calls[c]? = some call ∧ call.pc = pc := by
  obtain ⟨call',hc,h⟩ := Option.bind_eq_some_iff.mp h
  split_ifs at h with hpc
  cases h
  exact ⟨hc, hpc⟩

theorem failCalls_eq {calls : List LoopCall} (h : ∀ call ∈ calls, call.pc ≠ .spinning) :
    failCalls calls = calls.map LoopCall.fail := by
  have hall : ∀ call ∈ calls, decide (call.pc ≠ .spinning) = true :=
    fun call hc => decide_eq_true (h call hc)
  unfold failCalls
  rw [List.takeWhile_eq_self_iff.mpr hall, List.dropWhile_eq_nil_iff.mpr hall, List.append_nil]

theorem step_moves {s s' : CallLoop} {e : LoopEvent} (h : s.step e = some s') :
    s.destroyed = false ∧ Moves s e s' := by
  unfold step at h
  split_ifs at h with hdestroyed
  refine ⟨Bool.not_eq_true _ ▸ hdestroyed, ?_⟩
  cases e with
  | tick now =>
    cases h
    exact .tick now
  | die d =>
    obtain ⟨objs,hobjs,rfl⟩ := Option.map_eq_some_iff.mp h
    exact .die hobjs
  | enter limit =>
    simp only [move] at h
    split_ifs at h with hj hw
    · cases h
      exact .refuse limit (Bool.not_eq_true _ ▸ hj) hw
    · cases h
      exact .enter limit (Bool.not_eq_true _ ▸ hj) (Bool.not_eq_true _ ▸ hw)
  | start c =>
    obtain ⟨call,hcall,h⟩ := Option.bind_eq_some_iff.mp h
    obtain ⟨hc,hpc⟩ := callAt_eq hcall
    obtain ⟨final,hfinal,rfl⟩ := Option.map_eq_some_iff.mp h
    exact .start hc hpc hfinal
  | refconn c connects =>
    obtain ⟨call,hcall,h⟩ := Option.bind_eq_some_iff.mp h
    obtain ⟨hc,hpc⟩ := callAt_eq hcall
    obtain ⟨⟨s₁,ch⟩,hget,rfl⟩ := Option.map_eq_some_iff.mp h
    exact .refconn hc hpc hget
  | resend c =>
    simp only [move] at h
    split_ifs at h with hj
    obtain ⟨call,hcall,h⟩ := Option.bind_eq_some_iff.mp h
    obtain ⟨hc,hpc⟩ := callAt_eq hcall
    obtain ⟨d,hch,h⟩ := Option.bind_eq_some_iff.mp h
    obtain ⟨j,hdup,h⟩ := Option.bind_eq_some_iff.mp h
    obtain ⟨o,ho,rfl⟩ := Option.map_eq_some_iff.mp h
    refine .resend (Bool.not_eq_true _ ▸ hj) hc hpc hch hdup ?_
    rw [hch]
    exact congrArg (Option.map ConnObj.dead) ho
  | send c =>
    obtain ⟨call,hcall,h⟩ := Option.bind_eq_some_iff.mp h
    obtain ⟨hc,hpc⟩ := callAt_eq hcall
    split at h
    · rename_i hch
      cases h
      exact .unsent hc hpc (by rw [hch]; rfl)
    · rename_i d hch
      obtain ⟨o,ho,rfl⟩ := Option.map_eq_some_iff.mp h
      have hlost : s.lost call.ch = some o.dead := by
        rw [hch]
        exact congrArg (Option.map ConnObj.dead) ho
      split_ifs with hd
      · exact .unsent hc hpc (hlost.trans (congrArg some hd))
      · exact .sent hc hpc hch (hlost.trans (congrArg some (by simpa using hd)))
  | arm c =>
    obtain ⟨call,hcall,h⟩ := Option.bind_eq_some_iff.mp h
    obtain ⟨hc,hpc⟩ := callAt_eq hcall
    split_ifs at h with hfinal
    · cases h
      exact .expire hc hpc hfinal
    · obtain ⟨next,hnext,rfl⟩ := Option.map_eq_some_iff.mp h
      exact .arm hc hpc hfinal hnext
  | spin c =>
    obtain ⟨call,hcall,h⟩ := Option.bind_eq_some_iff.mp h
    obtain ⟨hc,hpc⟩ := callAt_eq hcall
    split_ifs at h with hspin
    cases h
    exact .spin hc hpc hspin.1 (by simpa using hspin.2)
  | timeout c =>
    obtain ⟨call,hcall,h⟩ := Option.bind_eq_some_iff.mp h
    obtain ⟨hc,hpc⟩ := callAt_eq hcall
    split_ifs at h with hlate
    cases h
    exact .timeout hc hpc hlate.1 hlate.2.1 hlate.2.2
  | wake c =>
    obtain ⟨call,hcall,h⟩ := Option.bind_eq_some_iff.mp h
    obtain ⟨hc,hpc⟩ := callAt_eq hcall
    split_ifs at h with hr
    cases h
    exact .wake hc hpc hr
  | look c =>
    obtain ⟨call,hcall,h⟩ := Option.bind_eq_some_iff.mp h
    obtain ⟨hc,hpc⟩ := callAt_eq hcall
    obtain ⟨lost,hlost,h⟩ := Option.bind_eq_some_iff.mp h
    by_cases hto : call.currTo*2 < 2^31
    · rw [if_pos hto] at h
      cases h
      exact .look hc hpc hlost hto
    · rw [if_neg hto] at h
      cases h
  | leave c k =>
    simp only [move] at h
    split_ifs at h with hj
    have hj' : s.jammed = false := Bool.not_eq_true _ ▸ hj
    obtain ⟨call,hcall,h⟩ := Option.bind_eq_some_iff.mp h
    obtain ⟨hc,hpc⟩ := callAt_eq hcall
    split_ifs at h with hw
    · unfold signal at h
      split_ifs at h with hany hk
      · cases h
        exact .leaveSignal hj' hc hpc hw hk
      · cases h
        refine .leave k hj' hc hpc (fun _ hmem => hany ?_)
        exact List.any_eq_true.mpr ⟨_, hmem, decide_eq_true rfl⟩
    · cases h
      exact .leave k hj' hc hpc (fun hw' => absurd hw' hw)
  | drop c =>
    obtain ⟨call,hcall,h⟩ := Option.bind_eq_some_iff.mp h
    obtain ⟨hc,hpc⟩ := callAt_eq hcall
    split_ifs at h with hkeep
    obtain ⟨objs,hobjs,rfl⟩ := Option.map_eq_some_iff.mp h
    exact .drop hc hpc hobjs
  | reply c ret =>
    simp only [move] at h
    split_ifs at h with hj
    have hj' : s.jammed = false := Bool.not_eq_true _ ▸ hj
    obtain ⟨call,hc,h⟩ := Option.bind_eq_some_iff.mp h
    split_ifs at h with hpc hreg
    · cases h
      exact .jam ret hj' hc hpc
    · cases h
      exact .reply ret hj' hc hpc hreg.1 hreg.2
    · cases h
      exact .late ret
  | cancel =>
    simp only [move] at h
    split_ifs at h with hj hspin hreg
    · cases h
      exact .cancelJam (Bool.not_eq_true _ ▸ hj) (by simpa using hspin)
    · have hspin' : ∀ call ∈ s.calls, call.pc ≠ .spinning := by simpa using hspin
      cases h
      rw [failCalls_eq hspin']
      exact .cancel (Bool.not_eq_true _ ▸ hj) hspin' (List.any_eq_true.mp hreg)
    · cases h
      exact .cancelIdle (Bool.not_eq_true _ ▸ hj) (by simpa using hreg)
  | recheck k =>
    simp only [move] at h
    split_ifs at h with hj hk hreg
    · cases h
      exact .sleepAgain (Bool.not_eq_true _ ▸ hj) hk (List.any_eq_true.mp hreg)
    · cases h
      exact .cancelled (Bool.not_eq_true _ ▸ hj) hk (by simpa using hreg)
  | destroy =>
    simp only [move] at h
    split_ifs at h with hout
    have hcalls : ∀ call ∈ s.calls, call.pc = .returned := by simpa using hout.1
    split at h
    · rename_i hchan
      cases h
      exact .destroyNone hcalls hchan
    · rename_i d hchan
      obtain ⟨objs',hobjs,rfl⟩ := Option.map_eq_some_iff.mp h
      obtain ⟨objs,hclose,hdec⟩ := Option.bind_eq_some_iff.mp hobjs
      exact .destroy hcalls hchan hclose hdec

end CallLoop

end DisconnectedYfs.RPC
