import DisconnectedYfs.RPCCallDeadlines

/-! `rpcc::cancel`: the calls that are under way fail, the thread that waits for them to leave is
woken by the last of them, and afterwards the client takes no calls. -/
namespace DisconnectedYfs.RPC

/-- A thread in `cancel` that has not returned. -/
def CancelPc.inside (k : CancelPc) : Bool := k ≠ .returned

namespace LoopCall

variable {s s' : CallLoop} {e : LoopEvent} {c : ℕ} {call call' : LoopCall}

/-- No later reply counts. -/
theorem reply_kept (hm : call.Moves s e c s' call') (hr : call.reply = some cancelFailure) :
    call'.reply = some cancelFailure := by
  cases hm with
  | fail =>
    unfold fail
    split_ifs
    · rfl
    · exact hr
  | reply ret _ hnone =>
    rw [hnone] at hr
    cases hr
  | _ => exact hr

/-- A call does not come back into `calls_`. -/
theorem registered_kept (hm : call.Moves s e c s' call') (hr : call'.registered = true) :
    call.registered = true := by
  unfold registered at hr ⊢
  cases hm with
  | stay => exact hr
  | fail => simpa [CallLoop.fail_pc] using hr
  | reply => exact hr
  | leave | drop => simp at hr
  | start _ hpc | refconn hpc | unsent hpc | sent hpc | expire hpc | arm _ hpc | spin hpc
  | timeout hpc | wake hpc | look hpc => simp [hpc]

/-- A call with a reply does not wait in vain. -/
theorem unspun_kept (hm : call.Moves s e c s' call') (hr : call.reply ≠ none)
    (hpc : call.pc ≠ .spinning) : call'.pc ≠ .spinning := by
  cases hm with
  | fail => rwa [CallLoop.fail_pc]
  | look =>
    dsimp only
    split_ifs <;> simp
  | spin _ hnone => exact absurd hnone hr
  | stay | reply => exact hpc
  | _ => simp

end LoopCall

namespace CallLoop

/-- Who sleeps in `cancel` has forbidden further calls, and whoever is under way then has failed. -/
structure Cancels (s : CallLoop) : Prop where
  waits : ∀ k ∈ s.cancels, k.inside = true → s.destroyWait = true
  failed : s.destroyWait = true → ∀ call ∈ s.calls, call.registered = true →
    call.reply = some cancelFailure ∧ call.pc ≠ .spinning
  free : s.destroyWait = true → s.jammed = false
  alone : s.destroyWait = true → (∃ k ∈ s.cancels, k.inside = true) ∨
    ∀ call ∈ s.calls, call.registered = false

section
variable {s s' : CallLoop} {e : LoopEvent} {c k : ℕ} {call : LoopCall} {x : CancelPc}

theorem moves_mem (hm : s.Moves e s') (h : call ∈ s'.calls) :
    (∃ (c : ℕ) (x : LoopCall), s.calls[c]? = some x ∧ x.Moves s e c s' call) ∨
    ∃ limit, e = .enter limit ∧
      (s.destroyWait = false ∧ call = { limit := limit } ∨
        s.destroyWait = true ∧
          call = { limit := limit, pc := .returned, reply := some cancelFailure }) := by
  obtain ⟨c,hc⟩ := List.mem_iff_getElem?.mp h
  obtain ⟨x,hx,hm⟩ | ⟨-,hnew⟩ := moves_calls hm hc
  · exact Or.inl ⟨c, x, hx, hm⟩
  · exact Or.inr hnew

/-- While no call can come in, the calls that are left were left before. -/
theorem Cancels.calls (h : s.Cancels) (hm : s.Moves e s') (hw : s.destroyWait = true)
    (hcall : call ∈ s'.calls) (hreg : call.registered = true) :
    call.reply = some cancelFailure ∧ call.pc ≠ .spinning ∧ ∃ x ∈ s.calls, x.registered = true := by
  obtain ⟨c,x,hx,hmoves⟩ | ⟨limit,-,⟨hw',-⟩ | ⟨-,rfl⟩⟩ := moves_mem hm hcall
  · have hmem := List.mem_of_getElem? hx
    have hreg' := LoopCall.registered_kept hmoves hreg
    obtain ⟨hr,hpc⟩ := h.failed hw x hmem hreg'
    exact ⟨LoopCall.reply_kept hmoves hr, LoopCall.unspun_kept hmoves (by simp [hr]) hpc,
      x, hmem, hreg'⟩
  · exact absurd (hw.symm.trans hw') (by simp)
  · cases hreg

/-- A step that leaves the cancelling threads alone. -/
theorem Cancels.quiet (h : s.Cancels) (hm : s.Moves e s') (hc : s'.cancels = s.cancels)
    (hw : s'.destroyWait = s.destroyWait) (hj : s.destroyWait = true → s'.jammed = s.jammed) :
    s'.Cancels := by
  refine ⟨fun k hk => ?_, fun ht call hcall hreg => ?_, fun ht => ?_, fun ht => ?_⟩
  · rw [hc] at hk
    rw [hw]
    exact h.waits k hk
  · obtain ⟨hr,hpc,-⟩ := h.calls hm (hw ▸ ht) hcall hreg
    exact ⟨hr, hpc⟩
  · rw [hj (hw ▸ ht)]
    exact h.free (hw ▸ ht)
  · rw [hc]
    refine (h.alone (hw ▸ ht)).imp id (fun hall call hcall => ?_)
    by_contra hreg
    obtain ⟨-,-,x,hx,hreg'⟩ := h.calls hm (hw ▸ ht) hcall (by simpa using hreg)
    exact absurd ((hall x hx).symm.trans hreg') (by simp)

/-- No call waits in vain once the calls are forbidden. -/
theorem Cancels.unspun (h : s.Cancels) (hc : s.calls[c]? = some call) (hpc : call.pc = .spinning)
    (hw : s.destroyWait = true) : False := by
  have hreg : call.registered = true := by simp [LoopCall.registered, hpc]
  exact (h.failed hw call (List.mem_of_getElem? hc) hreg).2 hpc

/-- The state of one cancelling thread changes. -/
theorem Cancels.setCancel {y : CancelPc} (h : s.Cancels) (hm : s.Moves e s')
    (hk : s.cancels[k]? = some x) (hx : x.inside = true) (hc : s'.cancels = s.cancels.set k y)
    (hw : s'.destroyWait = true) (hj : s'.jammed = s.jammed)
    (hy : y.inside = true ∨ ∀ call ∈ s'.calls, call.registered = false) : s'.Cancels := by
  have hwait : s.destroyWait = true := h.waits x (List.mem_of_getElem? hk) hx
  refine ⟨fun _ _ _ => hw, fun _ call hcall hreg => ?_, fun _ => hj.trans (h.free hwait),
    fun _ => ?_⟩
  · obtain ⟨hr,hpc,-⟩ := h.calls hm hwait hcall hreg
    exact ⟨hr, hpc⟩
  · refine hy.imp (fun hin => ⟨y, ?_, hin⟩) id
    rw [hc]
    exact List.mem_set (List.getElem?_eq_some_iff.mp hk).1 y

theorem Cancels.step (h : s.Cancels) (hstep : s.step e = some s') : s'.Cancels := by
  obtain ⟨-,hm⟩ := step_moves hstep
  have hm' := hm
  cases hm with
  | refconn _ _ hget =>
    obtain ⟨-,⟨objs,next,chan,rfl⟩,-⟩ := getRefconn_frame hget
    exact h.quiet hm' rfl rfl (fun _ => rfl)
  | jam ret hj hc hpc => exact h.quiet hm' rfl rfl (fun hw => (h.unspun hc hpc hw).elim)
  | leaveSignal hj hc hpc hw hk => exact h.setCancel hm' hk rfl rfl hw rfl (Or.inl rfl)
  | sleepAgain hj hk => exact h.setCancel hm' hk rfl rfl rfl rfl (Or.inl rfl)
  | cancelled hj hk hreg =>
    have hw := h.waits _ (List.mem_of_getElem? hk) rfl
    exact h.setCancel hm' hk rfl rfl hw rfl (Or.inr hreg)
  | cancelJam hj hspin =>
    obtain ⟨call,hcall,hpc⟩ := hspin
    obtain ⟨c,hc⟩ := List.mem_iff_getElem?.mp hcall
    exact h.quiet hm' rfl rfl (fun hw => (h.unspun hc hpc hw).elim)
  | cancel hj hspin hreg =>
    refine ⟨fun _ _ _ => rfl, fun _ call hcall hr => ?_, fun _ => hj,
      fun _ => Or.inl ⟨.sleeping, List.mem_append_right _ (List.mem_singleton_self _), rfl⟩⟩
    obtain ⟨x,hx,rfl⟩ := List.mem_map.mp hcall
    refine ⟨?_, fail_pc x ▸ hspin x hx⟩
    have hx' : x.registered = true := by simpa [LoopCall.registered, fail_pc] using hr
    rw [LoopCall.fail, if_pos hx']
  | cancelIdle hj hreg =>
    refine ⟨fun k hk hin => ?_, h.failed, h.free, fun hw => Or.inr hreg⟩
    obtain hk | hk := List.mem_append.mp hk
    · exact h.waits k hk hin
    · obtain rfl := List.mem_singleton.mp hk
      cases hin
  | _ => exact h.quiet hm' rfl rfl (fun _ => rfl)

theorem cancels_init (retrans : Bool) (clock : Timespec) (lossytest : Bool) :
    (init retrans clock lossytest).Cancels := by
  refine ⟨fun k hk => ?_, fun hw => ?_, fun hw => ?_, fun hw => ?_⟩
  · cases hk
  all_goals cases hw

/-- One thread at a time cancels. -/
def oneCancels (s : CallLoop) : LoopEvent → Bool
  | .cancel => s.cancels.all (· = .returned)
  | _ => true

/-- Of the threads in `cancel` at most one has not returned, and if it sleeps, a call is there that
will wake it. -/
structure Single (s : CallLoop) : Prop where
  one : ∀ (j k : ℕ) (x y : CancelPc), s.cancels[j]? = some x → s.cancels[k]? = some y →
    x.inside = true → y.inside = true → j = k
  awaited : CancelPc.sleeping ∈ s.cancels → ∃ call ∈ s.calls, call.registered = true

theorem setCall_registered {call' : LoopCall} (hc : s.calls[c]? = some call)
    (hy : call.registered = true → call'.registered = true)
    (h : ∃ x ∈ s.calls, x.registered = true) : ∃ x ∈ s.calls.set c call', x.registered = true := by
  obtain ⟨x,hx,hreg⟩ := h
  obtain ⟨j,hj⟩ := List.mem_iff_getElem?.mp hx
  have hlt := (List.getElem?_eq_some_iff.mp hc).1
  by_cases hjc : j = c
  · subst hjc
    obtain rfl : call = x := Option.some.inj (hc.symm.trans hj)
    exact ⟨call', List.mem_set hlt call', hy hreg⟩
  · refine ⟨x, List.mem_iff_getElem?.mpr ⟨j, ?_⟩, hreg⟩
    rw [List.getElem?_set_ne (Ne.symm hjc), hj]

theorem fail_registered (call : LoopCall) : call.fail.registered = call.registered := by
  unfold LoopCall.registered
  rw [fail_pc]

/-- A call leaves `calls_` only in its own step. -/
theorem registered_moves (hm : s.Moves e s') (he : ∀ c k, e ≠ .leave c k)
    (h : ∃ x ∈ s.calls, x.registered = true) : ∃ x ∈ s'.calls, x.registered = true := by
  cases hm with
  | tick | die | jam | late | cancelIdle | sleepAgain | cancelled | destroyNone | destroy
  | resend => exact h
  | enter | refuse =>
    obtain ⟨x,hx,hreg⟩ := h
    exact ⟨x, List.mem_append_left _ hx, hreg⟩
  | leave | leaveSignal => exact absurd rfl (he _ _)
  | refconn hc hpc hget =>
    obtain ⟨-,⟨objs,next,chan,rfl⟩,-⟩ := getRefconn_frame hget
    exact setCall_registered (s := s) hc (by simp [LoopCall.registered]) h
  | start hc | unsent hc | sent hc | expire hc | arm hc | spin hc | timeout hc | wake hc =>
    exact setCall_registered hc (by simp [LoopCall.registered]) h
  | look hc =>
    refine setCall_registered hc (fun _ => ?_) h
    unfold LoopCall.registered
    dsimp only
    split_ifs <;> rfl
  | drop hc hpc => exact setCall_registered hc (by simp [LoopCall.registered, hpc]) h
  | reply _ _ hc => exact setCall_registered hc id h
  | cancelJam =>
    obtain ⟨x,hx,hreg⟩ := h
    rw [← List.takeWhile_append_dropWhile (p := fun call : LoopCall => call.pc ≠ .spinning)
      (l := s.calls)] at hx
    obtain hx | hx := List.mem_append.mp hx
    · exact ⟨x.fail, List.mem_append_left _ (List.mem_map_of_mem hx), fail_registered x ▸ hreg⟩
    · exact ⟨x, List.mem_append_right _ hx, hreg⟩
  | cancel =>
    obtain ⟨x,hx,hreg⟩ := h
    exact ⟨x.fail, List.mem_map_of_mem hx, fail_registered x ▸ hreg⟩

theorem one_set {l : List CancelPc} {y : CancelPc}
    (h : ∀ (i j : ℕ) (x y : CancelPc), l[i]? = some x → l[j]? = some y → x.inside = true →
      y.inside = true → i = j) (hk : l[k]? = some x) (hx : x.inside = true) (i j : ℕ)
      (u v : CancelPc)
    (hi : (l.set k y)[i]? = some u) (hj : (l.set k y)[j]? = some v) (hu : u.inside = true)
    (hv : v.inside = true) : i = j := by
  by_cases hik : k = i <;> by_cases hjk : k = j
  · exact hik.symm.trans hjk
  · rw [List.getElem?_set_ne hjk] at hj
    exact hik.symm.trans (h k j x v hk hj hx hv)
  · rw [List.getElem?_set_ne hik] at hi
    exact (h i k u x hi hk hu hx).trans hjk
  · rw [List.getElem?_set_ne hik] at hi
    rw [List.getElem?_set_ne hjk] at hj
    exact h i j u v hi hj hu hv

/-- A thread inside is the new one if all others have returned. -/
theorem inside_append {l : List CancelPc} {y u : CancelPc} {i : ℕ} (h : ∀ k ∈ l, k = .returned)
    (hi : (l ++ [y])[i]? = some u) (hu : u.inside = true) : i = l.length ∧ u = y := by
  rw [List.getElem?_append] at hi
  split_ifs at hi with hlt
  · rw [h u (List.mem_of_getElem? hi)] at hu
    cases hu
  · have hlen := (List.getElem?_eq_some_iff.mp hi).1
    rw [List.length_singleton] at hlen
    exact ⟨by omega, List.mem_singleton.mp (List.mem_of_getElem? hi)⟩

/-- The only thread inside does not sleep if its state changes to another one. -/
theorem sleeping_set {y : CancelPc} (h : s.Single) (hk : s.cancels[k]? = some x)
    (hx : x.inside = true)
    (hy : y ≠ .sleeping) : CancelPc.sleeping ∉ s.cancels.set k y := by
  intro hmem
  obtain ⟨j,hj⟩ := List.mem_iff_getElem?.mp hmem
  rw [List.getElem?_set] at hj
  split_ifs at hj with hkj hlt
  · exact hy (Option.some.inj hj)
  · exact hkj (h.one k j x .sleeping hk hj hx rfl)

theorem Single.step (h : s.Single) (hcancels : s.Cancels) (he : s.oneCancels e = true)
    (hstep : s.step e = some s') : s'.Single := by
  obtain ⟨-,hm⟩ := step_moves hstep
  have hm' := hm
  cases hm with
  | refconn _ _ hget =>
    obtain ⟨-,⟨objs,next,chan,rfl⟩,-⟩ := getRefconn_frame hget
    exact ⟨h.one, fun hs => registered_moves hm' (by simp) (h.awaited hs)⟩
  | leave k hj hc hpc hn =>
    refine ⟨h.one, fun hs => ?_⟩
    exact absurd hs (hn (hcancels.waits _ hs rfl))
  | leaveSignal hj hc hpc hw hk =>
    exact ⟨one_set h.one hk rfl, fun hs => absurd hs (sleeping_set h hk rfl (by simp))⟩
  | sleepAgain hj hk hreg => exact ⟨one_set h.one hk rfl, fun _ => hreg⟩
  | cancelled hj hk => exact ⟨one_set h.one hk rfl,
      fun hs => absurd hs (sleeping_set h hk rfl (by simp))⟩
  | cancel hj hspin hreg =>
    have hall : ∀ k ∈ s.cancels, k = .returned := by simpa [oneCancels] using he
    refine ⟨fun i j u v hi hj hu hv => ?_, fun _ => registered_moves hm' (by simp) hreg⟩
    exact (inside_append hall hi hu).1.trans (inside_append hall hj hv).1.symm
  | cancelIdle =>
    have hall : ∀ k ∈ s.cancels, k = .returned := by simpa [oneCancels] using he
    refine ⟨fun i j u v hi hj hu hv => ?_, fun hs => ?_⟩
    · exact (inside_append hall hi hu).1.trans (inside_append hall hj hv).1.symm
    · obtain hs | hs := List.mem_append.mp hs
      · cases hall _ hs
      · cases List.mem_singleton.mp hs
  | _ => exact ⟨h.one, fun hs => registered_moves hm' (by simp) (h.awaited hs)⟩

theorem moves_destroyWait (hm : s.Moves e s') (hw : s.destroyWait = true) :
    s'.destroyWait = true := by
  cases hm with
  | refconn _ _ hget =>
    obtain ⟨-,⟨objs,next,chan,rfl⟩,-⟩ := getRefconn_frame hget
    exact hw
  | cancel | sleepAgain => rfl
  | _ => exact hw

/-- What becomes of the calls after `cancel` has found some: those that were under way and those
that come later return its failure, and none is under way once it has returned. -/
structure CancelWorks (s t : CallLoop) : Prop where
  failed : ∀ (c : ℕ) (call : LoopCall), s.calls[c]? = some call → call.registered = true →
    ∃ call', t.calls[c]? = some call' ∧ call'.result = cancelFailure
  kept : ∀ (c : ℕ) (call : LoopCall), s.calls[c]? = some call → call.registered = false →
    ∃ call', t.calls[c]? = some call' ∧ call'.result = call.result
  refused : ∀ (c : ℕ) (call : LoopCall), s.calls.length ≤ c → t.calls[c]? = some call →
    call.pc = .returned ∧ call.result = cancelFailure
  awaited : CancelPc.sleeping ∈ t.cancels → ∃ call ∈ t.calls, call.registered = true
  gone : (∀ k ∈ t.cancels, k = .returned) → ∀ call ∈ t.calls, call.registered = false

/-- The same for the replies, after further steps. -/
structure Failed (s t : CallLoop) : Prop where
  wait : t.destroyWait = true
  failed : ∀ (c : ℕ) (call : LoopCall), s.calls[c]? = some call → call.registered = true →
    ∃ call', t.calls[c]? = some call' ∧ call'.reply = some cancelFailure
  kept : ∀ (c : ℕ) (call : LoopCall), s.calls[c]? = some call → call.registered = false →
    ∃ call', t.calls[c]? = some call' ∧ call'.registered = false ∧ call'.reply = call.reply
  refused : ∀ (c : ℕ) (call : LoopCall), s.calls.length ≤ c → t.calls[c]? = some call →
    call.pc = .returned ∧ call.reply = some cancelFailure

theorem Failed.step {r : CallLoop} (h : Failed r s) (hstep : s.step e = some s') : Failed r s' := by
  obtain ⟨-,hm⟩ := step_moves hstep
  refine ⟨moves_destroyWait hm h.wait, fun c call hc hreg => ?_, fun c call hc hreg => ?_,
    fun c y hle hc => ?_⟩
  · obtain ⟨x,hx,hr⟩ := h.failed c call hc hreg
    obtain ⟨y,hy,hmoves⟩ := moves_forward hm hx
    exact ⟨y, hy, LoopCall.reply_kept hmoves hr⟩
  · obtain ⟨x,hx,hleft,hr⟩ := h.kept c call hc hreg
    obtain ⟨y,hy,hmoves⟩ := moves_forward hm hx
    obtain ⟨hleft',hr',-⟩ := LoopCall.left_kept hmoves hleft
    exact ⟨y, hy, hleft', hr'.trans hr⟩
  · obtain ⟨x,hx,hmoves⟩ | ⟨-,limit,-,⟨hw,-⟩ | ⟨-,rfl⟩⟩ := moves_calls hm hc
    · obtain ⟨hpc,hr⟩ := h.refused c x hle hx
      obtain ⟨-,hr',hpc'⟩ := LoopCall.left_kept hmoves (by simp [LoopCall.registered, hpc])
      exact ⟨hpc' hpc, hr'.trans hr⟩
    · exact absurd (h.wait.symm.trans hw) (by simp)
    · exact ⟨rfl, rfl⟩

theorem failed_cancel (hstep : s.step .cancel = some s')
    (hspin : ∀ call ∈ s.calls, call.pc ≠ .spinning)
    (hreg : ∃ call ∈ s.calls, call.registered = true) : Failed s s' := by
  obtain ⟨-,hm⟩ := step_moves hstep
  cases hm with
  | cancelJam _ hspin' =>
    obtain ⟨call,hcall,hpc⟩ := hspin'
    exact absurd hpc (hspin call hcall)
  | cancelIdle _ hnone =>
    obtain ⟨call,hcall,hr⟩ := hreg
    exact absurd ((hnone call hcall).symm.trans hr) (by simp)
  | cancel =>
    refine ⟨rfl, fun c call hc hr => ⟨call.fail, ?_, ?_⟩, fun c call hc hr => ⟨call.fail, ?_, ?_⟩,
      fun c call hle hc => ?_⟩
    · rw [List.getElem?_map, hc, Option.map_some]
    · rw [LoopCall.fail, if_pos hr]
    · rw [List.getElem?_map, hc, Option.map_some]
    · rw [LoopCall.fail, if_neg (by simp [hr])]
      exact ⟨hr, rfl⟩
    · have hlt := (List.getElem?_eq_some_iff.mp hc).1
      rw [List.length_map] at hlt
      omega

/-- In every run in which one thread at a time cancels, and no call waits with a time that is not
valid. -/
theorem cancel_works {retrans lossytest : Bool} {clock : Timespec} {es fs : List LoopEvent}
    {t : CallLoop}
    (hone : TraceSystem.Meets CallLoop.step (fun s e => s.oneCancels e = true)
      (init retrans clock lossytest) (es ++ .cancel :: fs))
    (hs : TraceSystem.run CallLoop.step (init retrans clock lossytest) es = some s)
    (ht : TraceSystem.run CallLoop.step (init retrans clock lossytest) (es ++ .cancel :: fs) =
      some t)
    (hspin : ∀ call ∈ s.calls, call.pc ≠ .spinning)
    (hreg : ∃ call ∈ s.calls, call.registered = true) : CancelWorks s t := by
  have hinv : t.Cancels ∧ t.Single := by
    refine hone.invariant (I := fun s => s.Cancels ∧ s.Single) ?_ ?_ ht
    · rintro r e r' ⟨hr,hr'⟩ he hstep
      exact ⟨hr.step hstep, hr'.step hr he hstep⟩
    · refine ⟨cancels_init retrans clock lossytest, fun j k x y hj => ?_, fun hs => ?_⟩
      · cases hj
      · cases hs
  have hfailed : Failed s t := by
    rw [TraceSystem.run_append, hs, Option.bind_some] at ht
    obtain ⟨s',hs',ht⟩ := Option.bind_eq_some_iff.mp ht
    exact TraceSystem.run_invariant (fun _ _ _ hr hstep => hr.step hstep)
      (failed_cancel hs' hspin hreg) ht
  refine ⟨fun c call hc hr => ?_, fun c call hc hr => ?_, fun c call hle hc => ?_, hinv.2.awaited,
    fun hall => ?_⟩
  · obtain ⟨call',hc',hr'⟩ := hfailed.failed c call hc hr
    exact ⟨call', hc', by rw [LoopCall.result, hr']; rfl⟩
  · obtain ⟨call',hc',-,hr'⟩ := hfailed.kept c call hc hr
    exact ⟨call', hc', by rw [LoopCall.result, hr']; rfl⟩
  · obtain ⟨hpc,hr⟩ := hfailed.refused c call hle hc
    exact ⟨hpc, by rw [LoopCall.result, hr]; rfl⟩
  · refine (hinv.1.alone hfailed.wait).resolve_left ?_
    rintro ⟨k,hk,hin⟩
    rw [hall k hk] at hin
    cases hin

end

/-- The steps of a call that finds no connection, up to its wait. -/
def waits (c : ℕ) : List LoopEvent := [.start c, .refconn c false, .send c, .arm c]

/-- Two calls wait; one has an answer. -/
def twoWait : List LoopEvent := [.enter 3000, .enter 3000] ++ waits 0 ++ waits 1 ++ [.reply 0 5]

/-- They leave, and the thread in `cancel` wakes up twice; another call is refused. -/
def bothLeave : List LoopEvent :=
  [.wake 0, .leave 0 0, .recheck 0, .wake 1, .leave 1 0, .drop 1, .recheck 0, .enter 3000]

theorem cancel_works_two :
    ∃ s t, TraceSystem.run CallLoop.step (init true ⟨1000, 0⟩) twoWait = some s ∧
    TraceSystem.run CallLoop.step (init true ⟨1000, 0⟩) (twoWait ++ .cancel :: bothLeave) = some t ∧
    CancelWorks s t ∧ t.calls.length = 3 ∧ t.cancels = [.returned] := by
  obtain ⟨s,hs,hspin,hreg⟩ := TraceSystem.reaches_of_any CallLoop.step
    (fun s => s.calls.all (·.pc ≠ .spinning) = true ∧ s.calls.any LoopCall.registered = true)
    (init true ⟨1000, 0⟩) twoWait (by decide +kernel)
  obtain ⟨t,ht,hend⟩ := TraceSystem.reaches_of_any CallLoop.step
    (fun t => t.calls.length = 3 ∧ t.cancels = [.returned]) (init true ⟨1000, 0⟩)
    (twoWait ++ .cancel :: bothLeave) (by decide +kernel)
  have hone : TraceSystem.Meets CallLoop.step (fun s e => s.oneCancels e = true)
    (init true ⟨1000, 0⟩)
      (twoWait ++ .cancel :: bothLeave) := by decide +kernel
  exact ⟨s, t, hs, ht, cancel_works hone hs ht (by simpa using hspin)
    (List.any_eq_true.mp hreg), hend⟩

/-- Of two threads in `cancel` the last call wakes one, and the other one sleeps on. -/
example : (TraceSystem.run CallLoop.step (init true ⟨1000, 0⟩) ([.enter 3000] ++ waits 0 ++
    [.cancel, .cancel, .wake 0, .leave 0 1, .drop 0, .recheck 1])).any (fun s =>
      s.cancels = [.sleeping, .returned] ∧ s.calls.all (·.pc = .returned)) = true := by
  decide +kernel

end CallLoop

end DisconnectedYfs.RPC
