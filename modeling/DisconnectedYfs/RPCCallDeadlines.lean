import DisconnectedYfs.RPCCallSends

/-! How long a call waits and how often. The waits double from `to_min` on and end at the final
deadline, as long as the clock does not go back and no sum of a time and a timeout is a whole second
of nanoseconds. -/
namespace DisconnectedYfs.RPC

/-- The places at which a call has not begun its next wait. -/
def CallPc.between : CallPc → Bool
  | .connecting | .sending | .arming | .looking => true
  | _ => false

/-- The places behind the loop. -/
def CallPc.behind : CallPc → Bool
  | .leaving | .dropping | .returned => true
  | _ => false

/-- The clock goes forward from the first second on, the timeouts double without an overflow, and no
sum is a whole second of nanoseconds. -/
def CallLoop.timely (s : CallLoop) : LoopEvent → Prop
  | .tick now => now.Normal ∧ s.clock.instant ≤ now.instant
  | .enter limit => 0 ≤ limit ∧ limit < 2^30-1000
  | .start c => ∀ call ∈ s.calls[c]?, Carries s.clock call.limit
  | .arm c => ∀ call ∈ s.calls[c]?, call.final.tv_sec ≠ 0 → Carries s.clock call.currTo
  | _ => True

instance (t : Timespec) : Decidable t.Normal :=
  decidable_of_iff (-2^63 ≤ t.tv_sec ∧ t.tv_sec < 2^63 ∧ 0 ≤ t.tv_nsec ∧ t.tv_nsec < 1000000000)
    ⟨fun h => ⟨h.1, h.2.1, h.2.2.1, h.2.2.2⟩, fun h => ⟨h.1, h.2, h.3, h.4⟩⟩

instance (a : Timespec) (b : ℤ) : Decidable (Carries a b) :=
  decidable_of_iff (a.tv_nsec+b%1000*1000000 ≠ 1000000000 ∧
    a.instant+b*1000000 < 2^63*1000000000) ⟨fun h => ⟨h.1, h.2⟩, fun h => ⟨h.1, h.2⟩⟩

instance (s : CallLoop) : (e : LoopEvent) → Decidable (s.timely e)
  | .tick now => inferInstanceAs (Decidable (now.Normal ∧ s.clock.instant ≤ now.instant))
  | .enter limit => inferInstanceAs (Decidable (0 ≤ limit ∧ limit < 2^30-1000))
  | .start c => inferInstanceAs (Decidable (∀ call ∈ s.calls[c]?, Carries s.clock call.limit))
  | .arm c => inferInstanceAs (Decidable (∀ call ∈ s.calls[c]?,
      call.final.tv_sec ≠ 0 → Carries s.clock call.currTo))
  | .die _ | .refconn _ _ | .resend _ | .send _ | .spin _ | .timeout _ | .wake _ | .look _
      | .leave _ _ | .drop _
  | .reply _ _ | .cancel | .recheck _ | .destroy => .isTrue trivial

namespace LoopCall

/-- When the call is to give up, in nanoseconds. -/
def deadline (call : LoopCall) : ℤ := call.begun.instant+call.limit*1000000

/-- The waits are over that come before the call's next one. -/
def Elapsed (call : LoopCall) (now : Timespec) : Prop :=
  call.final.tv_sec = 0 ∧ call.deadline ≤ now.instant ∨
  call.final.tv_sec ≠ 0 ∧ call.final.Normal ∧ call.final.instant = call.deadline ∧
    call.begun.instant+1000000000*(2^call.rounds-1) ≤ now.instant ∧
    1000*(2^call.rounds-1) ≤ call.limit

/-- What the call waits for. -/
def Awaits (call : LoopCall) : Prop :=
  call.next.Normal ∧ (call.final.tv_sec = 0 ∧ call.next.instant = call.deadline ∨
    call.final.tv_sec ≠ 0 ∧ call.final.Normal ∧ call.final.instant = call.deadline ∧
      call.next.instant ≤ call.deadline ∧
      call.begun.instant+1000000000*(2^call.rounds-1) ≤ call.next.instant)

/-- A call in time. -/
structure Timed (call : LoopCall) (now : Timespec) : Prop where
  limit : 0 ≤ call.limit ∧ call.limit < 2^30-1000
  rounds : call.rounds = 0 ∨ 1000*(2^(call.rounds-1)-1) ≤ call.limit
  sent : call.sent.length ≤ call.rounds+1 ∧
    (call.pc ≠ .arming → call.pc.behind = false → call.sent.length ≤ call.rounds)
  waited : call.pc = .waiting ∨ call.pc = .looking → call.currTo*2 = 1000*2^call.rounds
  waits : call.pc ≠ .looking → call.pc.between = true ∨ call.pc = .starting →
    call.currTo = 1000*2^call.rounds
  started : call.pc = .starting → call.rounds = 0
  elapsed : call.pc.between = true → call.Elapsed now
  awaits : call.pc = .waiting → call.Awaits
  valid : call.pc ≠ .spinning
  gaveUp : call.pc.behind = true → call.reply = none → call.deadline ≤ now.instant

variable {call call' : LoopCall} {now now' : Timespec}

theorem Timed.mono (h : call.Timed now) (hle : now.instant ≤ now'.instant) : call.Timed now' := by
  refine ⟨h.limit, h.rounds, h.sent, h.waited, h.waits, h.started, fun hpc => ?_, h.awaits, h.valid,
    fun hpc hr => le_trans (h.gaveUp hpc hr) hle⟩
  obtain ⟨h1,h2⟩ | ⟨h1,h2,h3,h4,h5⟩ := h.elapsed hpc
  · exact Or.inl ⟨h1, le_trans h2 hle⟩
  · exact Or.inr ⟨h1, h2, h3, le_trans h4 hle, h5⟩

/-- The sum of the clock and the timeout is the final deadline. -/
theorem Timed.start {final : Timespec} (h : call.Timed now) (hnow : now.Normal)
    (hpos : 1000000000 ≤ now.instant) (hpc : call.pc = .starting) (hc : Carries now call.limit)
    (hfinal : addTimespec now call.limit = some final) :
    Timed { call with pc := .connecting, begun := now, final := final } now := by
  obtain ⟨r,hsum,hinst,hnorm⟩ := addsTo_of_carries hnow h.limit.1 hc
  obtain rfl : r = final := Option.some.inj (hsum.symm.trans hfinal)
  have hzero := h.started hpc
  refine ⟨h.limit, h.rounds, ⟨h.sent.1, fun _ _ => h.sent.2 (by simp [hpc]) (by rw [hpc]; rfl)⟩,
    by simp, fun _ _ => h.waits (by simp [hpc]) (Or.inr hpc), by simp,
    fun _ => Or.inr ⟨?_, hnorm, hinst, ?_, ?_⟩, by simp, by simp, by simp [CallPc.behind]⟩
  · -- the clock is past the first second
    have hlim := h.limit.1
    have hlt := hnorm.nsec_lt
    unfold Timespec.instant at hinst hpos
    intro hsec
    dsimp only at hsec
    rw [hsec] at hinst
    omega
  · simp [hzero]
  · simpa [hzero] using h.limit.1

/-- The call waits for the next time, or for the final deadline if that is earlier. -/
theorem Timed.arm {next : Timespec} (h : call.Timed now) (hnow : now.Normal)
    (hpc : call.pc = .arming)
    (hsec : call.final.tv_sec ≠ 0) (hc : Carries now call.currTo)
    (hnext : addTimespec now call.currTo = some next) : Timed { call with
      pc := .waiting
      next := (nextDeadline next call.final).1
      final := (nextDeadline next call.final).2
      rounds := call.rounds+1 } now := by
  have hto : call.currTo = 1000*2^call.rounds := h.waits (by simp [hpc]) (Or.inl (by rw [hpc]; rfl))
  have hpow : (0 : ℤ) < 2^call.rounds := Int.pow_pos (by decide)
  obtain ⟨r,hsum,hinst,hnorm⟩ := addsTo_of_carries hnow (by omega) hc
  obtain rfl : r = next := Option.some.inj (hsum.symm.trans hnext)
  obtain ⟨hz,-⟩ | ⟨-,hfinal,hdead,helapsed,hround⟩ := h.elapsed (by rw [hpc]; rfl)
  · exact absurd hz hsec
  have hdouble : (2 : ℤ)^(call.rounds+1) = 2*2^call.rounds := by rw [pow_succ, mul_comm]
  have hcmp := cmpTimespec_eq_sign hnorm hfinal
  refine ⟨h.limit, Or.inr hround, ⟨by have := h.sent.1; dsimp only; omega, fun _ _ => h.sent.1⟩,
    fun _ => ?_, by simp [CallPc.between], by simp, by simp [CallPc.between], fun _ => ?_, by simp,
    by simp [CallPc.behind]⟩
  · dsimp only
    rw [hto, hdouble]
    omega
  · unfold Awaits nextDeadline
    rw [hcmp]
    by_cases hlate : call.final.instant < r.instant
    · have hsign : (r.instant-call.final.instant).sign > 0 := by
        rw [Int.sign_eq_one_of_pos (by omega)]
        decide
      rw [if_pos hsign]
      exact ⟨hfinal, Or.inl ⟨rfl, hdead⟩⟩
    · have hsign : ¬ (r.instant-call.final.instant).sign > 0 := by
        have := Int.sign_nonpos_iff.mpr (show r.instant-call.final.instant ≤ 0 by omega)
        omega
      rw [if_neg hsign]
      refine ⟨hnorm, Or.inr ⟨hsec, hfinal, hdead, ?_, ?_⟩⟩
      · change r.instant ≤ call.deadline
        omega
      · dsimp only
        rw [hdouble, hinst, hto]
        omega

theorem Timed.timeout (h : call.Timed now) (hpc : call.pc = .waiting)
    (hle : call.next.instant ≤ now.instant) : Timed { call with pc := .looking } now := by
  have hpow : (0 : ℤ) < 2^call.rounds := Int.pow_pos (by decide)
  refine ⟨h.limit, h.rounds, ⟨h.sent.1, fun _ _ => h.sent.2 (by simp [hpc]) (by rw [hpc]; rfl)⟩,
    fun _ => h.waited (Or.inl hpc), by simp, by simp, fun _ => ?_, by simp, by simp,
      by simp [CallPc.behind]⟩
  obtain ⟨-,⟨hz,hnext⟩ | ⟨hsec,hfinal,hdead,hlate,helapsed⟩⟩ := h.awaits hpc
  · exact Or.inl ⟨hz, hnext ▸ hle⟩
  · refine Or.inr ⟨hsec, hfinal, hdead, le_trans helapsed hle, ?_⟩
    unfold deadline at hlate
    dsimp only
    omega

/-- The next wait is twice as long. -/
theorem Timed.look {again : Bool} (h : call.Timed now) (hpc : call.pc = .looking) :
    Timed { call with
    pc := if again then .connecting else .arming
    currTo := call.currTo*2 } now := by
  have hto := h.waited (Or.inr hpc)
  have hsent := h.sent.2 (by simp [hpc]) (by rw [hpc]; rfl)
  have helapsed := h.elapsed (by rw [hpc]; rfl)
  cases again with
  | true =>
    exact ⟨h.limit, h.rounds, ⟨h.sent.1, fun _ _ => hsent⟩, by simp, fun _ _ => hto, by simp,
      fun _ => helapsed, by simp, by simp, by simp [CallPc.behind]⟩
  | false =>
    exact ⟨h.limit, h.rounds, ⟨h.sent.1, fun _ _ => hsent⟩, by simp, fun _ _ => hto, by simp,
      fun _ => helapsed, by simp, by simp, by simp [CallPc.behind]⟩

/-- A call that has a connection, or none, and goes on to the test of the deadline. -/
theorem Timed.toArming {sent : List ℕ} (h : call.Timed now) (hpc : call.pc = .sending)
    (hsent : sent.length ≤ call.sent.length+1) :
    Timed { call with pc := .arming, sent := sent } now := by
  have := h.sent.2 (by simp [hpc]) (by rw [hpc]; rfl)
  exact ⟨h.limit, h.rounds, ⟨by dsimp only; omega, by simp⟩, by simp,
    fun _ _ => h.waits (by simp [hpc]) (Or.inl (by rw [hpc]; rfl)), by simp,
    fun _ => h.elapsed (by rw [hpc]; rfl), by simp, by simp, by simp [CallPc.behind]⟩

/-- A call behind the loop. -/
theorem Timed.toBehind {pc : CallPc} {ch : Option ℕ} (h : call.Timed now) (hpc : pc.behind = true)
    (hr : call.reply = none → call.deadline ≤ now.instant) :
    Timed { call with pc := pc, ch := ch } now := by
  cases pc with
  | leaving | dropping | returned =>
    exact ⟨h.limit, h.rounds, ⟨h.sent.1, fun _ hb => by simp [CallPc.behind] at hb⟩, by simp,
      by simp [CallPc.between], by simp, by simp [CallPc.between], by simp, by simp, fun _ => hr⟩
  | _ => cases hpc

theorem Timed.reply {r : Int32} (h : call.Timed now) : Timed { call with reply := some r } now :=
  ⟨h.limit, h.rounds, h.sent, h.waited, h.waits, h.started, h.elapsed, h.awaits, h.valid, by simp⟩

theorem Timed.moves {s s' : CallLoop} {e : LoopEvent} {c : ℕ} (h : call.Timed s.clock)
    (hnow : s.clock.Normal)
    (hpos : 1000000000 ≤ s.clock.instant) (he : s.timely e) (hc : s.calls[c]? = some call)
    (hm : call.Moves s e c s' call') : call'.Timed s.clock := by
  cases hm with
  | stay => exact h
  | fail =>
    unfold LoopCall.fail
    split_ifs
    · exact h.reply
    · exact h
  | reply => exact h.reply
  | start heq hpc hfinal =>
    subst heq
    exact h.start hnow hpos hpc (he call hc) hfinal
  | refconn hpc =>
    exact ⟨h.limit, h.rounds, ⟨h.sent.1, fun _ _ => h.sent.2 (by simp [hpc]) (by rw [hpc]; rfl)⟩,
      by simp, fun _ _ => h.waits (by simp [hpc]) (Or.inl (by rw [hpc]; rfl)), by simp,
      fun _ => h.elapsed (by rw [hpc]; rfl), by simp, by simp, by simp [CallPc.behind]⟩
  | unsent hpc => exact h.toArming hpc (Nat.le_succ _)
  | sent hpc => exact h.toArming hpc le_rfl
  | expire hpc hz =>
    refine h.toBehind rfl (fun _ => ?_)
    obtain ⟨-,hle⟩ | ⟨hsec,-⟩ := h.elapsed (by rw [hpc]; rfl)
    · exact hle
    · exact absurd hz hsec
  | arm heq hpc hsec hnext =>
    subst heq
    exact h.arm hnow hpc hsec (he call hc hsec) hnext
  | spin hpc _ hv =>
    have hnorm := (h.awaits hpc).1
    have hvalid : call.next.valid = true := by simp [Timespec.valid, hnorm.nsec_ge, hnorm.nsec_lt]
    exact absurd (hv.symm.trans hvalid) (by simp)
  | timeout hpc hr hv hle => exact h.timeout hpc hle
  | wake hpc hr =>
    refine h.toBehind rfl (fun hnone => ?_)
    rw [hnone] at hr
    cases hr
  | look hpc => exact h.look hpc
  | leave hpc => exact h.toBehind rfl (h.gaveUp (by rw [hpc]; rfl))
  | drop hpc => exact h.toBehind rfl (h.gaveUp (by rw [hpc]; rfl))

/-- A call that has just come in, or was refused. -/
theorem timed_new {limit : ℤ} (h : 0 ≤ limit ∧ limit < 2^30-1000) :
    Timed { limit := limit } now := by
  refine ⟨h, Or.inl rfl, ⟨Nat.zero_le _, fun _ _ => Nat.zero_le _⟩, by simp, fun _ _ => rfl,
    fun _ => rfl, ?_, by simp, by simp, ?_⟩
  · intro hpc
    cases hpc
  · intro hpc
    cases hpc

theorem timed_refused {limit : ℤ} {r : Int32} (h : 0 ≤ limit ∧ limit < 2^30-1000) :
    Timed { limit := limit, pc := .returned, reply := some r } now := by
  refine ⟨h, Or.inl rfl, ⟨Nat.zero_le _, fun _ _ => Nat.zero_le _⟩, by simp, fun _ _ => rfl,
    by simp, ?_, by simp, by simp, by simp⟩
  intro hpc
  cases hpc

end LoopCall

namespace CallLoop

/-- The clock and every call are in time. -/
structure InTime (s : CallLoop) : Prop where
  normal : s.clock.Normal
  begun : 1000000000 ≤ s.clock.instant
  timed : ∀ (c : ℕ) (call : LoopCall), s.calls[c]? = some call → call.Timed s.clock

variable {s s' : CallLoop} {e : LoopEvent} {c : ℕ} {call : LoopCall}

theorem moves_clock (hm : s.Moves e s') : s'.clock = s.clock ∨ e = .tick s'.clock := by
  cases hm with
  | tick now => exact Or.inr rfl
  | refconn _ _ hget =>
    obtain ⟨-,⟨objs,next,chan,rfl⟩,-⟩ := getRefconn_frame hget
    exact Or.inl rfl
  | _ => exact Or.inl rfl

theorem InTime.step (h : s.InTime) (he : s.timely e) (hstep : s.step e = some s') : s'.InTime := by
  obtain ⟨-,hm⟩ := step_moves hstep
  have hclock : s'.clock.Normal ∧ s.clock.instant ≤ s'.clock.instant := by
    obtain hsame | rfl := moves_clock hm
    · rw [hsame]
      exact ⟨h.normal, le_rfl⟩
    · exact he
  refine ⟨hclock.1, le_trans h.begun hclock.2, fun j y hy => ?_⟩
  obtain ⟨x,hx,hxy⟩ | ⟨-,limit,rfl,⟨-,rfl⟩ | ⟨-,rfl⟩⟩ := moves_calls hm hy
  · exact ((h.timed j x hx).moves h.normal h.begun he hx hxy).mono hclock.2
  · exact LoopCall.timed_new he
  · exact LoopCall.timed_refused he

/-- The call waits no longer than it was told to and gives up no earlier. -/
structure KeepsTime (s : CallLoop) (c : ℕ) (call : LoopCall) : Prop where
  rounds : call.rounds = 0 ∨ 1000*(2^(call.rounds-1)-1) ≤ call.limit
  sent : call.sent.length ≤ call.rounds+1
  waits : call.pc = .waiting → call.next.Normal ∧ call.next.instant ≤ call.deadline
  valid : call.pc ≠ .spinning
  gaveUp : call.pc = .returned → call.reply = none → call.deadline ≤ s.clock.instant
  look : s.destroyed = false → call.pc = .looking → (s.step (.look c)).isSome

theorem InTime.look (h : s.InTime) (hcount : s.Counted) (hd : s.destroyed = false)
    (hc : s.calls[c]? = some call) (hpc : call.pc = .looking) : (s.step (.look c)).isSome := by
  have ht := h.timed c call hc
  have hlim := ht.limit
  obtain ⟨lost,hlost⟩ := hcount.lost hc
  have hto : call.currTo*2 < 2^31 := by
    rw [ht.waited (Or.inr hpc)]
    obtain hz | hr := ht.rounds
    · rw [hz]
      decide
    · rcases hn : call.rounds with _ | n
      · decide
      · rw [hn, Nat.add_sub_cancel] at hr
        rw [pow_succ]
        omega
  have hto' : call.currTo*2 < 2147483648 := hto
  simp [CallLoop.step, hd, move, callAt_some hc hpc, hlost, hto']

theorem keeps_time {retrans lossytest : Bool} {clock : Timespec} {es : List LoopEvent}
    (hclock : clock.Normal)
    (hpos : 1000000000 ≤ clock.instant)
    (htimely : TraceSystem.Meets CallLoop.step timely (init retrans clock lossytest) es)
    (hrun : TraceSystem.run CallLoop.step (init retrans clock lossytest) es = some s)
    (hc : s.calls[c]? = some call) : s.KeepsTime c call := by
  have hcount : s.Counted := TraceSystem.run_invariant (fun _ _ _ hr hstep => hr.step hstep)
    (counted_init retrans clock lossytest) hrun
  have htime : s.InTime := by
    refine htimely.invariant (fun _ _ _ hr he hstep => hr.step he hstep) ⟨hclock, hpos, ?_⟩ hrun
    intro j x hx
    cases hx
  have h := htime.timed c call hc
  refine ⟨h.rounds, h.sent.1, fun hpc => ⟨(h.awaits hpc).1, ?_⟩, h.valid,
    fun hpc => h.gaveUp (by rw [hpc]; rfl), fun hd hpc => htime.look hcount hd hc hpc⟩
  obtain ⟨-,⟨-,heq⟩ | ⟨-,-,-,hle,-⟩⟩ := h.awaits hpc
  · exact le_of_eq heq
  · exact hle

/-- With the default timeout a call waits seven times at most, and sends eight times. -/
theorem KeepsTime.default (h : s.KeepsTime c call) (hlim : call.limit = toMax) :
    call.rounds ≤ 7 ∧ call.sent.length ≤ 8 := by
  have hrounds : call.rounds ≤ 7 := by
    by_contra hlt
    obtain ⟨k,hk⟩ := Nat.exists_eq_add_of_le (show 8 ≤ call.rounds by omega)
    have hpow : (0 : ℤ) < 2^k := Int.pow_pos (by decide)
    obtain hz | hr := h.rounds
    · omega
    · rw [hlim, toMax, hk, show 8+k-1 = 7+k by omega, pow_add] at hr
      omega
  exact ⟨hrounds, le_trans h.sent (by omega)⟩

/-- A call that gets no answer: it waits for one second and for two, and gives up after three and a
half. -/
def unanswered : List LoopEvent :=
  [.enter 3500, .start 0, .refconn 0 true, .send 0, .arm 0, .tick ⟨1001, 0⟩, .timeout 0, .look 0,
    .arm 0, .tick ⟨1003, 1⟩, .timeout 0, .look 0, .arm 0, .tick ⟨1003, 500000000⟩, .timeout 0,
    .look 0, .arm 0, .leave 0 0, .drop 0]

theorem keeps_time_unanswered : ∃ s call, TraceSystem.run CallLoop.step (init true ⟨1000, 0⟩)
    unanswered = some s ∧ s.calls[0]? = some call ∧ s.KeepsTime 0 call ∧ call.rounds = 3 ∧
    call.result = timeoutFailure := by
  obtain ⟨s,hrun,h⟩ := TraceSystem.reaches_of_any CallLoop.step
    (fun s => (s.calls[0]?).any (fun call => call.rounds = 3 ∧ call.result = timeoutFailure) = true)
    (init true ⟨1000, 0⟩) unanswered (by decide +kernel)
  obtain ⟨call,hc,hend⟩ := (Option.any_eq_true _ _).mp h
  have hend' : call.rounds = 3 ∧ call.result = timeoutFailure := of_decide_eq_true hend
  exact ⟨s, call, hrun, hc, keeps_time (by decide) (by decide) (by decide +kernel) hrun hc, hend'⟩

end CallLoop

end DisconnectedYfs.RPC
