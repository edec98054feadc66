import DisconnectedYfs.RPCCallConnections

/-! A request goes to a connection once, and to the next one only after that has died. -/
namespace DisconnectedYfs.RPC

/-- What the step `e` from `s` to `s'` makes of the call `c`. -/
inductive LoopCall.Moves (s : CallLoop) (e : LoopEvent) (c : ℕ) (s' : CallLoop) (call : LoopCall) :
    LoopCall → Prop
  | stay : Moves s e c s' call call
  | fail : Moves s e c s' call call.fail
  | reply (ret : Int32) (hreg : call.registered = true) (hr : call.reply = none) :
      Moves s e c s' call { call with reply := some ret }
  | start {final} (he : e = .start c) (hpc : call.pc = .starting)
      (hfinal : addTimespec s.clock call.limit = some final) :
      Moves s e c s' call { call with pc := .connecting, begun := s.clock, final := final }
  | refconn {ch} (hpc : call.pc = .connecting)
      (hch : s'.chan = none ∧ ch = call.ch ∨ ∃ d, s'.chan = some d ∧ ch = some d) :
      Moves s e c s' call { call with pc := .sending, ch := ch }
  | unsent (hpc : call.pc = .sending) : Moves s e c s' call { call with pc := .arming }
  | sent {d} (hpc : call.pc = .sending) (hch : call.ch = some d)
      (hlive : s.lost call.ch = some false) :
      Moves s e c s' call { call with pc := .arming, sent := d :: call.sent }
  | expire (hpc : call.pc = .arming) (hfinal : call.final.tv_sec = 0) :
      Moves s e c s' call { call with pc := .leaving }
  | arm {next} (he : e = .arm c) (hpc : call.pc = .arming) (hfinal : call.final.tv_sec ≠ 0)
      (hnext : addTimespec s.clock call.currTo = some next) : Moves s e c s' call { call with
        pc := .waiting
        next := (nextDeadline next call.final).1
        final := (nextDeadline next call.final).2
        rounds := call.rounds+1 }
  | spin (hpc : call.pc = .waiting) (hr : call.reply = none) (hv : call.next.valid = false) :
      Moves s e c s' call { call with pc := .spinning }
  | timeout (hpc : call.pc = .waiting) (hr : call.reply = none) (hv : call.next.valid = true)
      (hle : call.next.instant ≤ s.clock.instant) : Moves s e c s' call { call with pc := .looking }
  | wake (hpc : call.pc = .waiting) (hr : call.reply.isSome = true) :
      Moves s e c s' call { call with pc := .leaving }
  | look {lost} (hpc : call.pc = .looking) (hlost : s.lost call.ch = some lost)
      (hto : call.currTo*2 < 2^31) : Moves s e c s' call { call with
        pc := if s.retrans && lost then .connecting else .arming
        currTo := call.currTo*2 }
  | leave (hpc : call.pc = .leaving) : Moves s e c s' call { call with pc := .dropping }
  | drop (hpc : call.pc = .dropping) : Moves s e c s' call { call with pc := .returned, ch := none }

namespace LoopCall

/-- A call that has left keeps its result. -/
theorem left_kept {s s' : CallLoop} {e : LoopEvent} {c : ℕ} {call call' : LoopCall}
    (hm : call.Moves s e c s' call') (hr : call.registered = false) :
    call'.registered = false ∧ call'.reply = call.reply ∧
      (call.pc = .returned → call'.pc = .returned) := by
  cases hm with
  | stay => exact ⟨hr, rfl, id⟩
  | fail =>
    unfold fail
    rw [if_neg (by simp [hr])]
    exact ⟨hr, rfl, id⟩
  | reply _ hreg => exact absurd (hr.symm.trans hreg) (by simp)
  | drop => exact ⟨rfl, rfl, fun _ => rfl⟩
  | start _ hpc | refconn hpc | unsent hpc | sent hpc | expire hpc | arm _ hpc | spin hpc
  | timeout hpc | wake hpc | look hpc | leave hpc => simp [registered, hpc] at hr

end LoopCall

namespace CallLoop

section
variable {s s' : CallLoop} {e : LoopEvent} {c j d : ℕ} {call call' : LoopCall}

theorem setCall_moves (hc : s.calls[c]? = some call) (hm : call.Moves s e c s' call')
    {y : LoopCall} (h : (s.calls.set c call')[j]? = some y) :
    ∃ x, s.calls[j]? = some x ∧ x.Moves s e j s' y := by
  rw [List.getElem?_set] at h
  split_ifs at h with hj hlt
  · subst hj
    cases h
    exact ⟨call, hc, hm⟩
  · exact ⟨y, h, .stay⟩

theorem failCalls_getElem {calls : List LoopCall} {y : LoopCall}
    (h : (failCalls calls)[j]? = some y) :
    ∃ x, calls[j]? = some x ∧ (y = x ∨ y = x.fail) := by
  rw [← List.takeWhile_append_dropWhile (p := fun call : LoopCall => call.pc ≠ .spinning)
    (l := calls)]
  unfold failCalls at h
  rw [List.getElem?_append, List.length_map] at h
  rw [List.getElem?_append]
  split_ifs at h ⊢
  · rw [List.getElem?_map] at h
    obtain ⟨x,hx,rfl⟩ := Option.map_eq_some_iff.mp h
    exact ⟨x, hx, Or.inr rfl⟩
  · exact ⟨y, h, Or.inl rfl⟩

theorem append_getElem {calls : List LoopCall} {x y : LoopCall} (h : (calls ++ [x])[j]? = some y) :
    calls[j]? = some y ∨ calls[j]? = none ∧ y = x := by
  rw [List.getElem?_append] at h
  split_ifs at h with hlt
  · exact Or.inl h
  · exact Or.inr ⟨List.getElem?_eq_none (by omega), List.mem_singleton.mp (List.mem_of_getElem? h)⟩

/-- A call of the new state was there before or has just come in. -/
theorem moves_calls (hm : s.Moves e s') {y : LoopCall} (h : s'.calls[j]? = some y) :
    (∃ x, s.calls[j]? = some x ∧ x.Moves s e j s' y) ∨
    s.calls[j]? = none ∧ ∃ limit, e = .enter limit ∧
    (s.destroyWait = false ∧ y = { limit := limit } ∨
      s.destroyWait = true ∧
        y = { limit := limit, pc := .returned, reply := some cancelFailure }) := by
  cases hm with
  | tick | die | late | jam | cancelIdle | sleepAgain | cancelled | destroyNone | destroy
  | resend =>
    exact Or.inl ⟨y, h, .stay⟩
  | enter limit hj hw =>
    obtain h | ⟨hnone,rfl⟩ := append_getElem h
    · exact Or.inl ⟨y, h, .stay⟩
    · exact Or.inr ⟨hnone, limit, rfl, Or.inl ⟨hw, rfl⟩⟩
  | refuse limit hj hw =>
    obtain h | ⟨hnone,rfl⟩ := append_getElem h
    · exact Or.inl ⟨y, h, .stay⟩
    · exact Or.inr ⟨hnone, limit, rfl, Or.inr ⟨hw, rfl⟩⟩
  | start hc hpc hfinal => exact Or.inl (setCall_moves hc (.start rfl hpc hfinal) h)
  | refconn hc hpc hget =>
    obtain ⟨-,⟨objs,next,chan,rfl⟩,hch⟩ := getRefconn_frame hget
    refine Or.inl (setCall_moves hc (.refconn hpc ?_) h)
    exact hch
  | unsent hc hpc => exact Or.inl (setCall_moves hc (.unsent hpc) h)
  | sent hc hpc hch hlive => exact Or.inl (setCall_moves hc (.sent hpc hch hlive) h)
  | expire hc hpc hfinal => exact Or.inl (setCall_moves hc (.expire hpc hfinal) h)
  | arm hc hpc hfinal hnext => exact Or.inl (setCall_moves hc (.arm rfl hpc hfinal hnext) h)
  | spin hc hpc hr hv => exact Or.inl (setCall_moves hc (.spin hpc hr hv) h)
  | timeout hc hpc hr hv hle => exact Or.inl (setCall_moves hc (.timeout hpc hr hv hle) h)
  | wake hc hpc hr => exact Or.inl (setCall_moves hc (.wake hpc hr) h)
  | look hc hpc hlost hto => exact Or.inl (setCall_moves hc (.look hpc hlost hto) h)
  | leave _ _ hc hpc => exact Or.inl (setCall_moves hc (.leave hpc) h)
  | leaveSignal _ hc hpc => exact Or.inl (setCall_moves hc (.leave hpc) h)
  | drop hc hpc => exact Or.inl (setCall_moves (s := s) hc (.drop hpc) h)
  | reply ret _ hc _ hreg hr => exact Or.inl (setCall_moves hc (.reply ret hreg hr) h)
  | cancelJam =>
    obtain ⟨x,hx,rfl | rfl⟩ := failCalls_getElem h
    · exact Or.inl ⟨_, hx, .stay⟩
    · exact Or.inl ⟨x, hx, .fail⟩
  | cancel =>
    obtain ⟨x,hx,rfl⟩ := Option.map_eq_some_iff.mp (List.getElem?_map.symm.trans h)
    exact Or.inl ⟨x, hx, .fail⟩

theorem moves_length (hm : s.Moves e s') : s.calls.length ≤ s'.calls.length := by
  cases hm with
  | enter | refuse => simp
  | refconn _ _ hget =>
    obtain ⟨-,⟨objs,next,chan,rfl⟩,-⟩ := getRefconn_frame hget
    simp [setCall]
  | cancelJam =>
    simp only [failCalls, List.length_append, List.length_map]
    rw [← List.length_append, List.takeWhile_append_dropWhile]
  | cancel => simp
  | tick | die | jam | late | cancelIdle | sleepAgain | cancelled | destroyNone | destroy
  | resend => exact le_rfl
  | _ => simp [setCall]

/-- A call is still there after a step. -/
theorem moves_forward (hm : s.Moves e s') (hc : s.calls[c]? = some call) :
    ∃ call', s'.calls[c]? = some call' ∧ call.Moves s e c s' call' := by
  have hlt := (List.getElem?_eq_some_iff.mp hc).1
  have hlt' := lt_of_lt_of_le hlt (moves_length hm)
  have hy := List.getElem?_eq_getElem hlt'
  obtain ⟨x,hx,hmoves⟩ | ⟨hnone,-⟩ := moves_calls hm hy
  · obtain rfl : call = x := Option.some.inj (hc.symm.trans hx)
    exact ⟨_, hy, hmoves⟩
  · rw [hc] at hnone
    cases hnone

theorem moves_frame (hm : s.Moves e s') : s.Frame s' := by
  cases hm with
  | refconn _ _ hget =>
    obtain ⟨hf,-,-⟩ := getRefconn_frame hget
    exact ⟨hf.retrans, hf.conns, hf.living, hf.chan⟩
  | die hclose =>
    exact ⟨rfl, le_rfl, fun d _ hl => ((living_close hclose).mp hl).2, fun d hd => Or.inl hd⟩
  | drop _ _ hrel =>
    exact ⟨rfl, le_rfl, fun d _ hl => (living_release hrel).mp hl, fun d hd => Or.inl hd⟩
  | destroy _ _ hclose hdec =>
    refine ⟨rfl, le_rfl, fun d _ hl => ?_, fun d hd => ?_⟩
    · exact ((living_close hclose).mp ((living_decref hdec).mp hl)).2
    · cases hd
  | _ => exact ⟨rfl, le_rfl, fun d _ hl => hl, fun d hd => Or.inl hd⟩

theorem lost_living {lost : Bool} (h : s.lost (some d) = some lost) :
    lost = true ↔ ¬ Living s.objs d := by
  obtain ⟨o,ho,rfl⟩ := Option.map_eq_some_iff.mp h
  simp [Living, ho]

/-- The call is to get a connection. -/
def early (call : LoopCall) : Prop := call.pc = .starting ∨ call.pc = .connecting

/-- A request goes out at most once on a connection. All that took it but the last are dead, and so
is the last when the call looks for another one. -/
structure Sends (s : CallLoop) (call : LoopCall) : Prop where
  ordered : call.sent.Pairwise (· > ·)
  dead : ∀ d ∈ call.sent.tail, ¬ Living s.objs d
  below : call.pc ≠ .returned → ∀ d ∈ call.sent, ∃ e, call.ch = some e ∧ d ≤ e ∧
    (d ≠ e → ¬ Living s.objs d)
  lost : early call → ∀ d, call.ch = some d → ¬ Living s.objs d
  fresh : call.pc = .sending → ∀ d ∈ call.sent, call.ch = some d → ¬ Living s.objs d
  chan : ∀ d e, call.ch = some d → s.chan = some e → d ≤ e
  bound : (∀ d ∈ call.sent, d < s.nextConn) ∧ ∀ d, call.ch = some d → d < s.nextConn
  once : s.retrans = false → call.sent.length ≤ 1 ∧
    (early call ∨ call.pc = .sending → call.sent = [])

theorem Sends.frame (h : s.Sends call) (hf : s.Frame s') : s'.Sends call := by
  have hdead : ∀ d, d < s.nextConn → ¬ Living s.objs d → ¬ Living s'.objs d :=
    fun d hlt hn hl => hn (hf.living d hlt hl)
  refine ⟨h.ordered, fun d hd => ?_, fun hpc d hd => ?_, fun hpc d hd => ?_, fun hpc d hd hch => ?_,
    fun d e hd he => ?_, ⟨fun d hd => ?_, fun d hd => ?_⟩, fun hr => h.once (hf.retrans ▸ hr)⟩
  · exact hdead d (h.bound.1 d (List.mem_of_mem_tail hd)) (h.dead d hd)
  · obtain ⟨e,he,hle,hne⟩ := h.below hpc d hd
    exact ⟨e, he, hle, fun hde => hdead d (h.bound.1 d hd) (hne hde)⟩
  · exact hdead d (h.bound.2 d hd) (h.lost hpc d hd)
  · exact hdead d (h.bound.1 d hd) (h.fresh hpc d hd hch)
  · obtain he | he := hf.chan e he
    · exact h.chan d e hd he
    · exact le_trans (le_of_lt (h.bound.2 d hd)) he
  · exact lt_of_lt_of_le (h.bound.1 d hd) hf.conns
  · exact lt_of_lt_of_le (h.bound.2 d hd) hf.conns

/-- A call goes on with the same connection. -/
theorem Sends.goesOn (h : s.Sends call) (hch : call'.ch = call.ch) (hsent : call'.sent = call.sent)
    (hearly : early call' → early call) (hsending : call'.pc = .sending → call.pc = .sending)
    (hret : call.pc = .returned → call'.pc = .returned) : s.Sends call' := by
  refine ⟨hsent ▸ h.ordered, hsent ▸ h.dead, fun hpc => ?_, fun hpc => ?_, fun hpc => ?_, ?_, ?_,
    fun hr => ?_⟩
  · rw [hsent, hch]
    exact h.below (mt hret hpc)
  · rw [hch]
    exact h.lost (hearly hpc)
  · rw [hsent, hch]
    exact h.fresh (hsending hpc)
  · rw [hch]
    exact h.chan
  · rw [hsent, hch]
    exact h.bound
  · rw [hsent]
    exact ⟨(h.once hr).1, fun hpc => (h.once hr).2 (hpc.imp hearly hsending)⟩

/-- `ch` becomes `chan_`, if there is one. -/
theorem Sends.refconn {ch : Option ℕ} (h : s.Sends call) (hf : s.Frame s')
    (hnum : ∀ d, s'.chan = some d → d < s'.nextConn) (hpc : call.pc = .connecting)
    (hch : s'.chan = none ∧ ch = call.ch ∨ ∃ d, s'.chan = some d ∧ ch = some d) :
    s'.Sends { call with pc := .sending, ch := ch } := by
  have h' := h.frame hf
  have hearly : early call := Or.inr hpc
  have hback : call.pc ≠ .returned := by simp [hpc]
  obtain ⟨-,rfl⟩ | ⟨d,hchan,rfl⟩ := hch
  · exact ⟨h'.ordered, h'.dead, fun _ => h'.below hback, fun hbad => by simp [early] at hbad,
      fun _ d _ hd => h'.lost hearly d hd, h'.chan, h'.bound,
      fun hr => ⟨(h'.once hr).1, fun _ => (h'.once hr).2 (Or.inl hearly)⟩⟩
  · -- what took the request before has died
    have hall : ∀ b ∈ call.sent, b ≤ d ∧ ¬ Living s'.objs b := by
      intro b hb
      obtain ⟨e,he,hle,hne⟩ := h'.below hback b hb
      refine ⟨le_trans hle (h'.chan e d he hchan), ?_⟩
      by_cases hbe : b = e
      · exact hbe ▸ h'.lost hearly e he
      · exact hne hbe
    refine ⟨h'.ordered, h'.dead, fun _ b hb => ⟨d, rfl, (hall b hb).1, fun _ => (hall b hb).2⟩,
      fun hbad => by simp [early] at hbad, fun _ b hb _ => (hall b hb).2, fun b e hb he => ?_,
      ⟨h'.bound.1, fun b hb => ?_⟩,
      fun hr => ⟨(h'.once hr).1, fun _ => (h'.once hr).2 (Or.inl hearly)⟩⟩
    · rw [hchan] at he
      cases hb
      cases he
      exact le_rfl
    · cases hb
      exact hnum d hchan

/-- The request goes out on a connection that is alive. -/
theorem Sends.send (h : s.Sends call) (hpc : call.pc = .sending) (hch : call.ch = some d)
    (hlive : Living s.objs d) : s.Sends { call with pc := .arming, sent := d :: call.sent } := by
  have hback : call.pc ≠ .returned := by simp [hpc]
  have hall : ∀ b ∈ call.sent, b < d ∧ ¬ Living s.objs b := by
    intro b hb
    obtain ⟨e,he,hle,hne⟩ := h.below hback b hb
    obtain rfl : e = d := Option.some.inj (he.symm.trans hch)
    have hbe : b ≠ e := by
      rintro rfl
      exact h.fresh hpc b hb hch hlive
    exact ⟨lt_of_le_of_ne hle hbe, hne hbe⟩
  refine ⟨List.pairwise_cons.mpr ⟨fun b hb => (hall b hb).1, h.ordered⟩, fun b hb => (hall b hb).2,
    fun _ b hb => ⟨d, hch, ?_⟩, fun hbad => by simp [early] at hbad, fun hbad => by simp at hbad,
    h.chan, ⟨fun b hb => ?_, h.bound.2⟩, fun hr => ⟨?_, fun hbad => by simp [early] at hbad⟩⟩
  · obtain rfl | hb := List.mem_cons.mp hb
    · exact ⟨le_rfl, fun hne => absurd rfl hne⟩
    · exact ⟨le_of_lt (hall b hb).1, fun _ => (hall b hb).2⟩
  · obtain rfl | hb := List.mem_cons.mp hb
    · exact h.bound.2 _ hch
    · exact h.bound.1 b hb
  · rw [(h.once hr).2 (Or.inr hpc)]
    simp

/-- A call that found its connection dead looks for another one, if it may. -/
theorem Sends.look {lost : Bool} {n : ℤ} (h : s.Sends call) (hpc : call.pc = .looking)
    (hlost : s.lost call.ch = some lost) : s.Sends { call with
      pc := if s.retrans && lost then .connecting else .arming, currTo := n } := by
  by_cases hagain : (s.retrans && lost) = true
  · obtain ⟨hr,hl⟩ := Bool.and_eq_true_iff.mp hagain
    rw [if_pos hagain]
    refine ⟨h.ordered, h.dead, fun _ => h.below (by simp [hpc]), fun _ d hd => ?_,
      fun hbad => by simp at hbad, h.chan, h.bound, fun hr' => absurd (hr.symm.trans hr') (by simp)⟩
    rw [show call.ch = some d from hd] at hlost
    exact (lost_living hlost).mp hl
  · rw [if_neg hagain]
    exact h.goesOn rfl rfl (by simp [early]) (by simp) (by simp [hpc])

theorem Sends.moves {y : LoopCall} (h : s.Sends call) (hf : s.Frame s')
    (hnum : ∀ d, s'.chan = some d → d < s'.nextConn) (hm : call.Moves s e c s' y) : s'.Sends y := by
  cases hm with
  | stay => exact h.frame hf
  | fail =>
    unfold LoopCall.fail
    split_ifs
    · exact (h.frame hf).goesOn rfl rfl id id id
    · exact h.frame hf
  | reply => exact (h.frame hf).goesOn rfl rfl id id id
  | start _ hpc => exact (h.frame hf).goesOn rfl rfl (fun _ => Or.inl hpc) (by simp) (by simp [hpc])
  | refconn hpc hch => exact h.refconn hf hnum hpc hch
  | sent hpc hch hlive =>
    rw [hch] at hlive
    have hliving : Living s.objs _ := not_not.mp (mt (lost_living hlive).mpr (by simp))
    exact (h.send hpc hch hliving).frame hf
  | look hpc hlost => exact (h.look hpc hlost).frame hf
  | drop hpc =>
    have h' := h.frame hf
    refine ⟨h'.ordered, h'.dead, fun hbad => absurd rfl hbad, fun _ d hd => ?_,
      fun hbad => by simp at hbad, fun d e hd => ?_, ⟨h'.bound.1, fun d hd => ?_⟩,
      fun hr => ⟨(h'.once hr).1, fun hbad => by simp [early] at hbad⟩⟩
    all_goals cases hd
  | unsent hpc | expire hpc | arm _ hpc | spin hpc | timeout hpc | wake hpc | leave hpc =>
    exact (h.frame hf).goesOn rfl rfl (by simp [early]) (by simp) (by simp [hpc])

theorem sends_new {limit : ℤ} {pc : CallPc} {reply : Option Int32} (h : pc ≠ .sending) :
    s.Sends { limit := limit, pc := pc, reply := reply } := by
  refine ⟨.nil, fun d hd => ?_, fun _ d hd => ?_, fun _ d hd => ?_, fun hbad => absurd hbad h,
    fun d e hd => ?_, ⟨fun d hd => ?_, fun d hd => ?_⟩, fun _ => ⟨Nat.zero_le _, fun _ => rfl⟩⟩
  all_goals cases hd

theorem Counted.sends_step (h : s.Counted)
    (hsends : ∀ (j : ℕ) (x : LoopCall), s.calls[j]? = some x → s.Sends x)
    (hstep : s.step e = some s') {y : LoopCall} (hy : s'.calls[j]? = some y) : s'.Sends y := by
  obtain ⟨-,hm⟩ := step_moves hstep
  obtain ⟨x,hx,hxy⟩ | ⟨-,limit,-,⟨-,rfl⟩ | ⟨-,rfl⟩⟩ := moves_calls hm hy
  · exact (hsends j x hx).moves (moves_frame hm) (fun d hd => (h.step hstep).chan_lt hd) hxy
  · exact sends_new (by simp)
  · exact sends_new (by simp)

/-- The request of call `j` is in `dup_req_` or was sent from there. -/
def Kept (s : CallLoop) (j : ℕ) : Prop := s.dupReq = some j ∨ ∃ d, (j, d) ∈ s.dups

/-- How often the request of call `j` went out or can go out from `dup_req_`. -/
def spares (s : CallLoop) (j : ℕ) : ℕ :=
  s.dups.countP (fun x => x.1 = j)+if s.dupReq = some j then 1 else 0

/-- `dup_req_` takes only requests of calls that are over and done, each at most once. -/
structure Spares (s : CallLoop) : Prop where
  ended : ∀ j, s.Kept j → s.lossytest = true ∧
    ∃ call, s.calls[j]? = some call ∧ call.pc = .returned ∧ call.reply.isSome = true
  once : ∀ j, s.spares j ≤ 1

theorem moves_lossytest (hm : s.Moves e s') : s'.lossytest = s.lossytest := by
  cases hm with
  | refconn _ _ hget =>
    obtain ⟨-,⟨objs,next,chan,rfl⟩,-⟩ := getRefconn_frame hget
    rfl
  | _ => rfl

/-- A step that keeps no request. -/
theorem Spares.keep (h : s.Spares) (hm : s.Moves e s') (hkept : ∀ j, s'.Kept j → s.Kept j)
    (hle : ∀ j, s'.spares j ≤ s.spares j) : s'.Spares := by
  refine ⟨fun j hj => ?_, fun j => le_trans (hle j) (h.once j)⟩
  obtain ⟨hl,x,hx,hpc,hr⟩ := h.ended j (hkept j hj)
  obtain ⟨y,hy,hxy⟩ := moves_forward hm hx
  obtain ⟨-,hr',hpc'⟩ := LoopCall.left_kept hxy (by simp [LoopCall.registered, hpc])
  exact ⟨(moves_lossytest hm).trans hl, y, hy, hpc' hpc, hr' ▸ hr⟩

/-- What is sent is no longer in `dup_req_`. -/
theorem Spares.resend (h : s.Spares) {lost : Bool} (hm : s.Moves (.resend c) { s with
    dupReq := none, dups := if lost then s.dups else (j, d) :: s.dups })
    (hdup : s.dupReq = some j) :
    Spares { s with dupReq := none, dups := if lost then s.dups else (j, d) :: s.dups } := by
  refine h.keep hm (fun i hi => ?_) (fun i => ?_)
  · obtain hi | ⟨b,hb⟩ := hi
    · cases hi
    · cases lost with
      | true => exact Or.inr ⟨b, hb⟩
      | false =>
        obtain heq | hb := List.mem_cons.mp hb
        · cases heq
          exact Or.inl hdup
        · exact Or.inr ⟨b, hb⟩
  · unfold spares
    rw [hdup]
    cases lost with
    | true => simp
    | false => simp [List.countP_cons]

/-- A call that returns has kept nothing before. -/
theorem Spares.drop (h : s.Spares) {objs : ℕ → Option ConnObj} (hm : s.Moves (.drop c)
    ({ s with objs := objs, dupReq := s.keepDup c call }.setCall c
      { call with pc := .returned, ch := none })) (hc : s.calls[c]? = some call)
    (hpc : call.pc = .dropping) : ({ s with objs := objs, dupReq := s.keepDup c call }.setCall c
      { call with pc := .returned, ch := none }).Spares := by
  by_cases hkeep : (s.keeps call && s.dupReq.isNone) = true
  · have hdup : s.keepDup c call = some c := if_pos hkeep
    obtain ⟨hdone,hl⟩ := Bool.and_eq_true_iff.mp (Bool.and_eq_true_iff.mp hkeep).1
    have hnone : s.dupReq = none := by simpa using (Bool.and_eq_true_iff.mp hkeep).2
    have hlt := (List.getElem?_eq_some_iff.mp hc).1
    have hnew : ¬ s.Kept c := by
      intro hkept
      obtain ⟨-,x,hx,hpc',-⟩ := h.ended c hkept
      rw [hc] at hx
      cases hx
      rw [hpc] at hpc'
      cases hpc'
    have hzero : s.dups.countP (fun x => x.1 = c) = 0 := by
      refine List.countP_eq_zero.mpr (fun x hx heq => hnew (Or.inr ⟨x.2, ?_⟩))
      rw [← of_decide_eq_true heq]
      exact hx
    refine ⟨fun i hi => ⟨hl, ?_⟩, fun i => ?_⟩
    · by_cases hic : i = c
      · subst hic
        exact ⟨_, List.getElem?_set_self hlt, rfl, hdone⟩
      · have hi' : s.Kept i := hi.imp
          (fun heq => absurd (Option.some.inj (hdup.symm.trans heq)).symm hic) id
        obtain ⟨-,x,hx,hrest⟩ := h.ended i hi'
        exact ⟨x, (List.getElem?_set_ne (Ne.symm hic)).trans hx, hrest⟩
    · have hspares : s.spares i ≤ 1 := h.once i
      unfold spares at hspares ⊢
      dsimp only [setCall]
      rw [hnone] at hspares
      rw [hdup]
      by_cases hic : c = i
      · subst hic
        simp [hzero]
      · simpa [hic] using hspares
  · have hdup : s.keepDup c call = s.dupReq := if_neg hkeep
    refine h.keep hm (fun i hi => ?_) (fun i => ?_)
    · rw [hdup] at hi
      exact hi
    · rw [hdup]
      exact le_rfl

theorem Spares.step (h : s.Spares) (hstep : s.step e = some s') : s'.Spares := by
  obtain ⟨-,hm⟩ := step_moves hstep
  have hm' := hm
  cases hm with
  | refconn _ _ hget =>
    obtain ⟨-,⟨objs,next,chan,rfl⟩,-⟩ := getRefconn_frame hget
    exact h.keep hm' (fun _ => id) (fun _ => le_rfl)
  | resend _ _ _ _ hdup => exact h.resend hm' hdup
  | drop hc hpc => exact h.drop hm' hc hpc
  | _ => exact h.keep hm' (fun _ => id) (fun _ => le_rfl)

theorem spares_init (retrans : Bool) (clock : Timespec) (lossytest : Bool) :
    (init retrans clock lossytest).Spares := by
  refine ⟨fun j hj => ?_, fun j => Nat.zero_le _⟩
  obtain hj | ⟨d,hd⟩ := hj
  · cases hj
  · cases hd

/-- The call hands its request to no connection twice, and to another one only after the last has
died; without retransmission it hands it out once at most. From `dup_req_` the request goes out at
most once more, and only with `lossytest_` and after the call has returned with a reply. -/
theorem sent_once {retrans lossytest : Bool} {clock : Timespec} {es : List LoopEvent}
    (hrun : TraceSystem.run CallLoop.step (init retrans clock lossytest) es = some s)
    (hc : s.calls[c]? = some call) : call.sent.Nodup ∧ (∀ d ∈ call.sent.tail, ¬ Living s.objs d) ∧
      (s.retrans = false → call.sent.length ≤ 1) ∧ s.dups.countP (fun x => x.1 = c) ≤ 1 ∧
      ∀ d, (c, d) ∈ s.dups →
        s.lossytest = true ∧ call.pc = .returned ∧ call.reply.isSome = true := by
  have hinv : s.Counted ∧ s.Spares ∧ ∀ (j : ℕ) (x : LoopCall),
    s.calls[j]? = some x → s.Sends x := by
    refine TraceSystem.run_invariant (I := fun s => s.Counted ∧ s.Spares ∧
      ∀ (j : ℕ) (x : LoopCall), s.calls[j]? = some x → s.Sends x) ?_ ?_ hrun
    · rintro r e r' ⟨hr,hspares,hsends⟩ hstep
      exact ⟨hr.step hstep, hspares.step hstep, fun j y hy => hr.sends_step hsends hstep hy⟩
    · refine ⟨counted_init retrans clock lossytest, spares_init retrans clock lossytest,
        fun j x hx => ?_⟩
      cases hx
  obtain ⟨-,hspares,hsends⟩ := hinv
  have h := hsends c call hc
  refine ⟨h.ordered.imp (fun hlt => ne_of_gt hlt), h.dead, fun hr => (h.once hr).1,
    le_trans (Nat.le_add_right _ _) (hspares.once c), fun d hd => ?_⟩
  obtain ⟨hl,x,hx,hpc,hr⟩ := hspares.ended c (Or.inr ⟨d, hd⟩)
  obtain rfl : call = x := Option.some.inj (hc.symm.trans hx)
  exact ⟨hl, hpc, hr⟩

end

/-- A call is answered on its second connection, and the next call sends its request again. -/
def sentAgain : List LoopEvent :=
  [.enter 3000, .start 0, .refconn 0 true, .send 0, .arm 0, .die 0, .tick ⟨1001, 0⟩, .timeout 0,
    .look 0, .refconn 0 true, .send 0, .arm 0, .reply 0 0, .wake 0, .leave 0 0, .drop 0,
    .enter 3000, .start 1, .refconn 1 true, .resend 1, .send 1]

theorem sent_once_resent : ∃ s call, TraceSystem.run CallLoop.step
    (init true ⟨1000, 0⟩ true) sentAgain = some s ∧ s.calls[0]? = some call ∧ call.sent = [1, 0] ∧
    s.dups = [(0, 1)] ∧ call.sent.Nodup ∧ ¬ Living s.objs 0 ∧ call.pc = .returned := by
  obtain ⟨s,hrun,h,hdups⟩ := TraceSystem.reaches_of_any CallLoop.step
    (fun s => (s.calls[0]?).any (fun call => call.sent = [1, 0]) = true ∧ s.dups = [(0, 1)])
    (init true ⟨1000, 0⟩ true) sentAgain (by decide +kernel)
  obtain ⟨call,hc,hsent⟩ := (Option.any_eq_true _ _).mp h
  have hsent' : call.sent = [1, 0] := of_decide_eq_true hsent
  obtain ⟨hnodup,hdead,-,-,hover⟩ := sent_once hrun hc
  refine ⟨s, call, hrun, hc, hsent', hdups, hnodup, hdead 0 ?_, (hover 1 ?_).2.1⟩
  · rw [hsent']
    exact List.mem_cons_self
  · rw [hdups]
    exact List.mem_cons_self

end CallLoop

end DisconnectedYfs.RPC
