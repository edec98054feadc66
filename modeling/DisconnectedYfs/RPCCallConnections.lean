import DisconnectedYfs.RPCCallLoop
import DisconnectedYfs.RPCReferenceCounts

/-! The connections of a client. A connection is counted by the calls that hold it and by `chan_`,
so none is used after it was deleted and none is left behind; and a request goes out on another
connection only after the last one has died. -/
namespace DisconnectedYfs.RPC

/-- The connection is there and not dead. -/
def Living (objs : ℕ → Option ConnObj) (d : ℕ) : Prop := ∃ o, objs d = some o ∧ o.dead = false

/-- Every object has a count of references, and a dead one has some. -/
structure Counts (objs : ℕ → Option ConnObj) (n : ℕ → ℕ) : Prop where
  refno : ∀ d o, objs d = some o → o.refno = n d ∧ (o.dead = true → 0 < n d)
  gone : ∀ d, objs d = none → n d = 0

section
variable {objs objs' : ℕ → Option ConnObj} {n m : ℕ → ℕ} {c d e : ℕ}

theorem Counts.congr (h : Counts objs n) (hn : ∀ d, m d = n d) : Counts objs m := by
  have : m = n := funext hn
  exact this ▸ h

theorem Counts.exists (h : Counts objs n) (hd : 0 < n d) : ∃ o, objs d = some o := by
  apply Option.ne_none_iff_exists'.mp
  intro hnone
  have := h.gone d hnone
  omega

/-- An object is changed, and with it its count. -/
theorem Counts.update (h : Counts objs n) {o : ConnObj} (ho : o.refno = m d)
    (hdead : o.dead = true → 0 < m d) (hm : ∀ e, e ≠ d → m e = n e) :
    Counts (Function.update objs d (some o)) m := by
  refine ⟨fun e o' he => ?_, fun e he => ?_⟩
  · obtain ⟨rfl,hv⟩ | ⟨hne,hv⟩ := update_eq_some he
    · cases hv
      exact ⟨ho, hdead⟩
    · rw [hm e hne]
      exact h.refno e o' hv
  · obtain ⟨hne,he⟩ := update_eq_none he
    rw [hm e hne]
    exact h.gone e he

theorem living_update {o : ConnObj} :
    Living (Function.update objs d (some o)) e ↔ e = d ∧ o.dead = false ∨
    e ≠ d ∧ Living objs e := by
  unfold Living
  by_cases he : e = d
  · subst he
    simp
  · simp [he]

theorem Counts.incref (h : Counts objs n) (hd : 0 < n d) : ∃ objs', increfObj d objs = some objs' ∧
    Counts objs' (fun e => n e+if e = d then 1 else 0) := by
  obtain ⟨o,ho⟩ := h.exists hd
  have hn := (h.refno d o ho).1
  refine ⟨_, Option.map_eq_some_iff.mpr ⟨o, ho, rfl⟩, h.update ?_ ?_ ?_⟩
  · simp [hn]
  · intro
    simp
  · intro e he
    simp [he]

theorem Counts.decref (h : Counts objs n) (hd : 0 < n d) : ∃ objs', decrefObj d objs = some objs' ∧
    Counts objs' (fun e => n e-if e = d then 1 else 0) := by
  obtain ⟨o,ho⟩ := h.exists hd
  have hn := (h.refno d o ho).1
  have hpos : ¬ o.refno-1 < 0 := by omega
  refine ⟨_, Option.bind_eq_some_iff.mpr ⟨o, ho, if_neg hpos⟩, ?_⟩
  dsimp only
  split_ifs with hlast
  · -- the object is deleted
    refine ⟨fun e o' he => ?_, fun e he => ?_⟩
    · obtain ⟨rfl,hv⟩ | ⟨hne,hv⟩ := update_eq_some he
      · cases hv
      · simpa [hne] using h.refno e o' hv
    · by_cases hne : e = d
      · subst hne
        have := hlast.1
        simp only [if_true]
        omega
      · rw [Function.update_of_ne hne] at he
        simp [hne, h.gone e he]
  · refine h.update ?_ ?_ ?_
    · simp only [if_true]
      omega
    · intro hdead
      have : o.refno-1 ≠ 0 := fun hz => hlast ⟨hz, hdead⟩
      simp only [if_true]
      omega
    · intro e he
      simp [he]

theorem Counts.close (h : Counts objs n) (hd : 0 < n d) : ∃ objs', closeObj d objs = some objs' ∧
    Counts objs' n := by
  obtain ⟨o,ho⟩ := h.exists hd
  refine ⟨_, Option.map_eq_some_iff.mpr ⟨o, ho, rfl⟩, h.update ?_ ?_ ?_⟩
  · exact (h.refno d o ho).1
  · intro
    exact hd
  · intro e _
    rfl

theorem living_incref (h : increfObj d objs = some objs') : Living objs' e ↔ Living objs e := by
  obtain ⟨o,ho,rfl⟩ := Option.map_eq_some_iff.mp h
  rw [living_update]
  by_cases he : e = d
  · subst he
    simp [Living, ho]
  · simp [he]

/-- Only a dead connection is deleted. -/
theorem living_decref (h : decrefObj d objs = some objs') : Living objs' e ↔ Living objs e := by
  obtain ⟨o,ho,h⟩ := Option.bind_eq_some_iff.mp h
  dsimp only at h
  split_ifs at h with hneg hlast
  · cases h
    by_cases he : e = d
    · subst he
      simp [Living, ho, hlast.2]
    · simp [Living, he]
  · cases h
    rw [living_update]
    by_cases he : e = d
    · subst he
      simp [Living, ho]
    · simp [he]

theorem living_release {ch : Option ℕ} (h : releaseObj ch objs = some objs') :
    Living objs' e ↔ Living objs e := by
  cases ch with
  | none =>
    cases h
    rfl
  | some d => exact living_decref h

theorem Counts.release {ch : Option ℕ} (h : Counts objs n) (hch : ∀ d, ch = some d → 0 < n d) :
    ∃ objs', releaseObj ch objs = some objs' ∧
      Counts objs' (fun e => n e-if ch = some e then 1 else 0) := by
  cases ch with
  | none => exact ⟨objs, rfl, h.congr (fun e => by simp)⟩
  | some d =>
    obtain ⟨objs',hdec,h'⟩ := h.decref (hch d rfl)
    exact ⟨objs', hdec, h'.congr (fun e => by simp [eq_comm])⟩

/-- No step brings an object back. -/
theorem incref_none (h : increfObj d objs = some objs') (he : objs e = none) : objs' e = none := by
  obtain ⟨o,ho,rfl⟩ := Option.map_eq_some_iff.mp h
  by_cases hd : e = d
  · subst hd
    rw [he] at ho
    cases ho
  · rw [Function.update_of_ne hd, he]

theorem decref_none (h : decrefObj d objs = some objs') (he : objs e = none) : objs' e = none := by
  obtain ⟨o,ho,h⟩ := Option.bind_eq_some_iff.mp h
  have hd : e ≠ d := by
    rintro rfl
    rw [he] at ho
    cases ho
  dsimp only at h
  split_ifs at h
  all_goals
    cases h
    rw [Function.update_of_ne hd, he]

theorem release_none {ch : Option ℕ} (h : releaseObj ch objs = some objs') (he : objs e = none) :
    objs' e = none := by
  cases ch with
  | none =>
    cases h
    exact he
  | some d => exact decref_none h he

theorem close_none (h : closeObj d objs = some objs') (he : objs e = none) : objs' e = none := by
  obtain ⟨o,ho,rfl⟩ := Option.map_eq_some_iff.mp h
  by_cases hd : e = d
  · subst hd
    rw [he] at ho
    cases ho
  · rw [Function.update_of_ne hd, he]

theorem living_close (h : closeObj d objs = some objs') :
    Living objs' e ↔ e ≠ d ∧ Living objs e := by
  obtain ⟨o,ho,rfl⟩ := Option.map_eq_some_iff.mp h
  rw [living_update]
  simp

end

namespace CallLoop

/-- Who holds a connection: `chan_`, and the calls. -/
def holders (s : CallLoop) (d : ℕ) : ℕ :=
  (if s.chan = some d then 1 else 0)+s.calls.countP (fun call => call.ch = some d)

/-- The counts are right, the only connection alive is `chan_`, and a call that has returned holds
none. -/
structure Counted (s : CallLoop) : Prop where
  counts : Counts s.objs s.holders
  living : ∀ d, Living s.objs d → s.chan = some d
  numbered : ∀ d, s.nextConn ≤ d → s.objs d = none
  out : ∀ call ∈ s.calls, call.pc = .returned → call.ch = none

section
variable {s s' s₁ : CallLoop} {c d : ℕ} {call call' : LoopCall} {calls : List LoopCall}
  {ch ch' : Option ℕ} {connects : Bool} {objs : ℕ → Option ConnObj}

theorem holders_of_chan (h : s.chan = some d) : 0 < s.holders d := by
  unfold holders
  rw [if_pos h]
  omega

theorem holders_of_call (hc : s.calls[c]? = some call) (hch : call.ch = some d) :
    0 < s.holders d := by
  have : 0 < s.calls.countP (fun call => call.ch = some d) :=
    List.countP_pos_iff.mpr ⟨call, List.mem_of_getElem? hc, decide_eq_true hch⟩
  unfold holders
  omega

/-- What the list of the calls holds after one of them has changed. -/
theorem countP_setCall (hc : s.calls[c]? = some call) (x : LoopCall) (d : ℕ) :
    (s.calls.set c x).countP (fun call => call.ch = some d)+(if call.ch = some d then 1 else 0) =
    s.calls.countP (fun call => call.ch = some d)+(if x.ch = some d then 1 else 0) := by
  simpa using countP_set_some (f := fun call : LoopCall => call.ch = some d) hc

theorem Counted.chan_lt (h : s.Counted) (hd : s.chan = some d) : d < s.nextConn := by
  by_contra hge
  have hpos := holders_of_chan hd
  have hzero := h.counts.gone d (h.numbered d (by omega))
  omega

/-- The calls change, but not what they hold. -/
theorem Counted.withCalls (h : s.Counted)
    (hcount : ∀ d, calls.countP (fun call => call.ch = some d) =
      s.calls.countP (fun call => call.ch = some d))
    (hout : ∀ call ∈ calls, call.pc = .returned → call.ch = none) :
    Counted { s with calls := calls } := by
  refine ⟨h.counts.congr (fun d => ?_), h.living, h.numbered, hout⟩
  unfold holders
  dsimp only
  rw [hcount d]

theorem out_setCall (hout : ∀ call ∈ s.calls, call.pc = .returned → call.ch = none)
    (hnew : call'.pc = .returned → call'.ch = none) :
    ∀ call ∈ s.calls.set c call', call.pc = .returned → call.ch = none := by
  intro x hx
  obtain hx | rfl := List.mem_or_eq_of_mem_set hx
  · exact hout x hx
  · exact hnew

theorem Counted.setCall (h : s.Counted) (hc : s.calls[c]? = some call) (hch : call'.ch = call.ch)
    (hpc : call'.pc ≠ .returned) : (s.setCall c call').Counted := by
  refine h.withCalls (fun d => ?_) (out_setCall h.out (fun hr => absurd hr hpc))
  have := countP_setCall hc call' d
  rw [hch] at this
  omega

/-- A new `chan_` when no connection is alive and nothing but the calls holds one. -/
theorem counted_connect (hcounts : Counts objs
    (fun d => s.calls.countP (fun call => call.ch = some d)))
    (hdead : ∀ d, ¬ Living objs d) (hnum : ∀ d, s.nextConn ≤ d → objs d = none)
    (hout : ∀ call ∈ s.calls, call.pc = .returned → call.ch = none) :
    (connect connects { s with objs := objs }).Counted := by
  unfold connect
  split_ifs
  · have hnew := hcounts.gone _ (hnum s.nextConn le_rfl)
    refine ⟨hcounts.update ?_ ?_ ?_, fun d hl => ?_, fun d hle => ?_, hout⟩
    · unfold holders
      simp only [if_true]
      omega
    · intro hfalse
      cases hfalse
    · intro d hne
      unfold holders
      simp [Ne.symm hne]
    · obtain ⟨rfl,-⟩ | ⟨-,hl⟩ := living_update.mp hl
      · rfl
      · exact absurd hl (hdead d)
    · have hle' : s.nextConn+1 ≤ d := hle
      change Function.update objs s.nextConn _ d = none
      rw [Function.update_of_ne (by omega)]
      exact hnum d (by omega)
  · refine ⟨hcounts.congr (fun d => ?_), fun d hl => absurd hl (hdead d), hnum, hout⟩
    unfold holders
    simp

theorem refresh_none (h : s.chan = none) : s.refresh connects = some (s.connect connects) := by
  unfold refresh
  rw [h]

theorem refresh_some (h : s.chan = some d) : s.refresh connects = (s.objs d).bind (fun o =>
    if o.dead then
      (decrefObj d s.objs).map (fun objs => connect connects { s with objs := objs })
    else some s) := by
  unfold refresh
  split
  · rename_i hnone
    rw [h] at hnone
    cases hnone
  · rename_i e he
    rw [h] at he
    cases he
    rfl

theorem moveRef_none (h : s.chan = none) : s.moveRef ch = some (s, ch) := by
  unfold moveRef
  rw [h]

theorem moveRef_some (h : s.chan = some d) : s.moveRef ch = (releaseObj ch s.objs).bind (fun objs =>
    (increfObj d objs).map (fun objs => ({ s with objs := objs }, some d))) := by
  unfold moveRef
  split
  · rename_i hnone
    rw [h] at hnone
    cases hnone
  · rename_i e he
    rw [h] at he
    cases he
    rfl

theorem calls_connect (s : CallLoop) : (s.connect connects).calls = s.calls := by
  unfold connect
  split_ifs <;> rfl

theorem Counted.refresh (h : s.Counted) (connects : Bool) :
    ∃ s₁, s.refresh connects = some s₁ ∧ s₁.Counted ∧ s₁.calls = s.calls := by
  rcases hchan : s.chan with _ | d
  · refine ⟨_, refresh_none hchan, ?_, calls_connect s⟩
    refine counted_connect (s := s) (h.counts.congr (fun d => ?_)) (fun d hl => ?_) h.numbered h.out
    · unfold holders
      simp [hchan]
    · have := h.living d hl
      rw [hchan] at this
      cases this
  · obtain ⟨o,ho⟩ := h.counts.exists (holders_of_chan hchan)
    rw [refresh_some hchan, ho, Option.bind_some]
    split_ifs with hdead
    · obtain ⟨objs,hdec,hcounts⟩ := h.counts.decref (holders_of_chan hchan)
      rw [hdec]
      refine ⟨_, rfl, ?_, calls_connect _⟩
      refine counted_connect (hcounts.congr (fun e => ?_)) (fun e hl => ?_)
        (fun e he => decref_none hdec (h.numbered e he)) h.out
      · unfold holders
        by_cases he : e = d
        · subst he
          simp [hchan]
        · simp [hchan, he, Ne.symm he]
      · -- it would be `chan_`, which is dead
        have hl' := (living_decref hdec).mp hl
        have he := h.living e hl'
        rw [hchan] at he
        cases he
        obtain ⟨o',ho',hlive⟩ := hl'
        rw [ho] at ho'
        cases ho'
        rw [hdead] at hlive
        cases hlive
    · exact ⟨s, rfl, h, rfl⟩

/-- A call's reference goes from one connection to `chan_`. -/
theorem holders_moved (hc : s.calls[c]? = some call) (hchan : s.chan = some d)
    (hch : call'.ch = some d)
    (e : ℕ) : (s.setCall c call').holders e =
      (s.holders e-if call.ch = some e then 1 else 0)+if e = d then 1 else 0 := by
  have hset := countP_setCall hc call' e
  have hpos : call.ch = some e → 0 < s.calls.countP (fun call => call.ch = some e) := fun he =>
    List.countP_pos_iff.mpr ⟨call, List.mem_of_getElem? hc, decide_eq_true he⟩
  have hed : some d = some e ↔ e = d := by rw [Option.some.injEq, eq_comm]
  unfold holders CallLoop.setCall
  simp only [hch, hchan, hed] at hset ⊢
  by_cases h1 : call.ch = some e
  · have := hpos h1
    simp only [h1, if_true] at hset ⊢
    omega
  · simp only [h1, if_false] at hset ⊢
    omega

theorem Counted.moveRef (h : s.Counted) (hc : s.calls[c]? = some call) :
    ∃ s₁ ch, s.moveRef call.ch = some (s₁, ch) ∧ ∀ pc, pc ≠ .returned →
      (s₁.setCall c { call with pc := pc, ch := ch }).Counted := by
  rcases hchan : s.chan with _ | d
  · exact ⟨s, call.ch, moveRef_none hchan, fun pc hpc => h.setCall hc rfl hpc⟩
  · obtain ⟨objs,hrel,hcounts⟩ := h.counts.release (fun e he => holders_of_call hc he)
    have hheld : 0 < s.holders d-if call.ch = some d then 1 else 0 := by
      have hpos : call.ch = some d → 0 < s.calls.countP (fun call => call.ch = some d) := fun he =>
        List.countP_pos_iff.mpr ⟨call, List.mem_of_getElem? hc, decide_eq_true he⟩
      unfold holders
      rw [if_pos hchan]
      split_ifs with hch
      · have := hpos hch
        omega
      · omega
    obtain ⟨objs',hinc,hcounts'⟩ := hcounts.incref hheld
    rw [moveRef_some hchan, hrel, Option.bind_some, hinc]
    refine ⟨_, _, rfl, fun pc hpc => ?_⟩
    refine ⟨hcounts'.congr (fun e => ?_), fun e hl => ?_, fun e he => ?_, ?_⟩
    · exact holders_moved hc hchan rfl e
    · exact h.living e ((living_release hrel).mp ((living_incref hinc).mp hl))
    · exact incref_none hinc (release_none hrel (h.numbered e he))
    · exact out_setCall h.out (fun hr => absurd hr hpc)

theorem Counted.refconn (h : s.Counted) (hc : s.calls[c]? = some call)
    (connects : Bool) : ∃ s₁ ch, s.getRefconn call.ch connects = some (s₁, ch) ∧
      ∀ pc, pc ≠ .returned → (s₁.setCall c { call with pc := pc, ch := ch }).Counted := by
  obtain ⟨s₁,hs₁,h₁,hcalls⟩ := h.refresh connects
  rw [getRefconn, hs₁, Option.bind_some]
  exact h₁.moveRef (hcalls ▸ hc)

/-- What a step does to the connections. -/
structure Frame (s s' : CallLoop) : Prop where
  retrans : s'.retrans = s.retrans
  conns : s.nextConn ≤ s'.nextConn
  living : ∀ d, d < s.nextConn → Living s'.objs d → Living s.objs d
  chan : ∀ d, s'.chan = some d → s.chan = some d ∨ s.nextConn ≤ d

theorem connect_frame (hl : ∀ d, Living objs d → Living s.objs d) :
    s.Frame (connect connects { s with objs := objs }) := by
  unfold connect
  split_ifs
  · refine ⟨rfl, Nat.le_succ _, fun d hlt h => ?_, fun d hd => ?_⟩
    · obtain ⟨rfl,-⟩ | ⟨-,h⟩ := living_update.mp h
      · exact absurd hlt (lt_irrefl _)
      · exact hl d h
    · cases hd
      exact Or.inr le_rfl
  · refine ⟨rfl, le_rfl, fun d _ h => hl d h, fun d hd => ?_⟩
    cases hd

theorem connect_eq (s : CallLoop) (connects : Bool) : ∃ objs next chan,
    s.connect connects = { s with objs := objs, nextConn := next, chan := chan } := by
  unfold connect
  split_ifs
  · exact ⟨_, _, _, rfl⟩
  · exact ⟨_, _, _, rfl⟩

theorem refresh_frame (h : s.refresh connects = some s₁) : s.Frame s₁ ∧
    ∃ objs next chan, s₁ = { s with objs := objs, nextConn := next, chan := chan } := by
  rcases hchan : s.chan with _ | d
  · rw [refresh_none hchan] at h
    cases h
    exact ⟨connect_frame (fun _ hl => hl), s.connect_eq connects⟩
  · rw [refresh_some hchan] at h
    obtain ⟨o,-,h⟩ := Option.bind_eq_some_iff.mp h
    split_ifs at h
    · obtain ⟨objs,hdec,rfl⟩ := Option.map_eq_some_iff.mp h
      exact ⟨connect_frame (fun _ hl => (living_decref hdec).mp hl), connect_eq _ connects⟩
    · cases h
      exact ⟨⟨rfl, le_rfl, fun _ _ hl => hl, fun _ hd => Or.inl hd⟩, s.objs,
        s.nextConn, s.chan, rfl⟩

/-- `ch` is `chan_` afterwards unless that is null. -/
theorem getRefconn_frame (h : s.getRefconn ch connects = some (s₁, ch')) : s.Frame s₁ ∧
    (∃ objs next chan, s₁ = { s with objs := objs, nextConn := next, chan := chan }) ∧
    (s₁.chan = none ∧ ch' = ch ∨ ∃ d, s₁.chan = some d ∧ ch' = some d) := by
  obtain ⟨s₀,hs₀,h⟩ := Option.bind_eq_some_iff.mp h
  obtain ⟨hf,objs,next,chan,rfl⟩ := refresh_frame hs₀
  rcases hchan : chan with _ | d
  · subst hchan
    rw [moveRef_none rfl] at h
    cases h
    exact ⟨hf, ⟨_, _, _, rfl⟩, Or.inl ⟨rfl, rfl⟩⟩
  · subst hchan
    rw [moveRef_some rfl] at h
    obtain ⟨objs₁,hrel,h⟩ := Option.bind_eq_some_iff.mp h
    obtain ⟨objs₂,hinc,heq⟩ := Option.map_eq_some_iff.mp h
    cases heq
    refine ⟨⟨hf.retrans, hf.conns, fun e hlt hl => ?_, hf.chan⟩, ⟨_, _, _, rfl⟩,
      Or.inr ⟨d, rfl, rfl⟩⟩
    exact hf.living e hlt ((living_release hrel).mp ((living_incref hinc).mp hl))

theorem fail_ch (call : LoopCall) : call.fail.ch = call.ch := by
  unfold LoopCall.fail
  split_ifs <;> rfl

theorem fail_pc (call : LoopCall) : call.fail.pc = call.pc := by
  unfold LoopCall.fail
  split_ifs <;> rfl

theorem mem_failCalls (h : call ∈ failCalls calls) :
    ∃ call' ∈ calls, call = call' ∨ call = call'.fail := by
  obtain h | h := List.mem_append.mp h
  · obtain ⟨call',h',rfl⟩ := List.mem_map.mp h
    exact ⟨call', List.takeWhile_subset _ h', Or.inr rfl⟩
  · exact ⟨call, List.dropWhile_subset _ h, Or.inl rfl⟩

theorem countP_map_fail (d : ℕ) : (calls.map LoopCall.fail).countP (fun call => call.ch = some d) =
    calls.countP (fun call => call.ch = some d) := by
  rw [List.countP_map]
  congr 1
  funext call
  simp only [Function.comp_apply, fail_ch]

theorem countP_failCalls (d : ℕ) : (failCalls calls).countP (fun call => call.ch = some d) =
    calls.countP (fun call => call.ch = some d) := by
  rw [failCalls, List.countP_append, countP_map_fail, ← List.countP_append,
    List.takeWhile_append_dropWhile]

theorem out_failCalls (hout : ∀ call ∈ calls, call.pc = .returned → call.ch = none) :
    ∀ call ∈ failCalls calls, call.pc = .returned → call.ch = none := by
  intro call hcall hpc
  obtain ⟨call',hcall',rfl | rfl⟩ := mem_failCalls hcall
  · exact hout _ hcall' hpc
  · rw [fail_ch]
    exact hout call' hcall' (fail_pc call' ▸ hpc)

/-- What is there is held. -/
theorem Counted.held {o : ConnObj} (h : s.Counted) (ho : s.objs d = some o) : 0 < s.holders d := by
  by_cases hdead : o.dead = true
  · exact (h.counts.refno d o ho).2 hdead
  · exact holders_of_chan (h.living d ⟨o, ho, Bool.not_eq_true _ ▸ hdead⟩)

theorem Counted.enter (h : s.Counted) (hch : call.ch = none) :
    Counted { s with calls := s.calls ++ [call] } := by
  refine h.withCalls (fun d => ?_) (fun x hx hpc => ?_)
  · simp [List.countP_append, hch]
  · obtain hx | hx := List.mem_append.mp hx
    · exact h.out x hx hpc
    · rw [List.mem_singleton.mp hx, hch]

theorem Counted.die (h : s.Counted) (hclose : closeObj d s.objs = some objs) :
    Counted { s with objs := objs } := by
  obtain ⟨o,ho,-⟩ := Option.map_eq_some_iff.mp hclose
  obtain ⟨objs',hclose',hcounts⟩ := h.counts.close (h.held ho)
  rw [hclose] at hclose'
  cases hclose'
  exact ⟨hcounts, fun e hl => h.living e ((living_close hclose).mp hl).2,
    fun e he => close_none hclose (h.numbered e he), h.out⟩

theorem Counted.drop {dup : Option ℕ} (h : s.Counted) (hc : s.calls[c]? = some call)
    (hrel : releaseObj call.ch s.objs = some objs) :
    ({ s with objs := objs, dupReq := dup }.setCall c
      { call with pc := .returned, ch := none }).Counted := by
  obtain ⟨objs',hrel',hcounts⟩ := h.counts.release (fun e he => holders_of_call hc he)
  rw [hrel] at hrel'
  cases hrel'
  refine ⟨hcounts.congr (fun e => ?_), fun e hl => h.living e ((living_release hrel).mp hl),
    fun e he => release_none hrel (h.numbered e he), out_setCall h.out (fun _ => rfl)⟩
  have hset := countP_setCall hc { call with pc := .returned, ch := none } e
  unfold holders CallLoop.setCall
  simp only [reduceCtorEq, if_false] at hset ⊢
  omega

theorem Counted.destroy {objs' : ℕ → Option ConnObj} (h : s.Counted) (hchan : s.chan = some d)
    (hclose : closeObj d s.objs = some objs) (hdec : decrefObj d objs = some objs') :
    Counted { s with objs := objs', chan := none, destroyed := true } := by
  have hdie := h.die hclose
  have hheld : 0 < holders { s with objs := objs } d := holders_of_chan hchan
  obtain ⟨objs'',hdec',hcounts⟩ := hdie.counts.decref hheld
  rw [hdec] at hdec'
  cases hdec'
  refine ⟨hcounts.congr (fun e => ?_), fun e hl => ?_,
    fun e he => decref_none hdec (hdie.numbered e he), h.out⟩
  · unfold holders
    by_cases he : e = d
    · subst he
      simp [hchan]
    · simp [hchan, he, Ne.symm he]
  · obtain ⟨hne,hl⟩ := (living_close hclose).mp ((living_decref hdec).mp hl)
    have he := h.living e hl
    rw [hchan] at he
    exact absurd (Option.some.inj he).symm hne

theorem Counted.step {e : LoopEvent} (h : s.Counted) (hstep : s.step e = some s') : s'.Counted := by
  obtain ⟨-,hm⟩ := step_moves hstep
  cases hm with
  | tick | late | jam | cancelIdle | sleepAgain | cancelled | destroyNone | resend =>
    exact ⟨h.counts, h.living, h.numbered, h.out⟩
  | die hclose => exact h.die hclose
  | enter | refuse => exact h.enter rfl
  | refconn hc hpc hget =>
    obtain ⟨s₁,ch,hget',hcounted⟩ := h.refconn hc _
    rw [hget] at hget'
    cases hget'
    exact hcounted _ (by simp)
  | start hc | unsent hc | sent hc | expire hc | arm hc | spin hc | timeout hc | wake hc =>
    exact h.setCall hc rfl (by simp)
  | look hc =>
    refine h.setCall hc rfl ?_
    dsimp only
    split_ifs <;> simp
  | reply ret hj hc hpc hreg =>
    refine h.setCall hc rfl (fun hr => ?_)
    simp only [LoopCall.registered, Bool.decide_and, Bool.and_eq_true, decide_eq_true_eq] at hreg
    exact hreg.2 hr
  | leave k hj hc => exact h.setCall hc rfl (by simp)
  | @leaveSignal c call k hj hc =>
    have hset : (s.setCall c { call with pc := .dropping }).Counted := h.setCall hc rfl (by simp)
    obtain ⟨h1,h2,h3,h4⟩ := hset
    exact ⟨h1, h2, h3, h4⟩
  | drop hc hpc hrel => exact h.drop hc hrel
  | cancelJam =>
    obtain ⟨h1,h2,h3,h4⟩ := h.withCalls countP_failCalls (out_failCalls h.out)
    exact ⟨h1, h2, h3, h4⟩
  | cancel hj hspin =>
    have hout := out_failCalls h.out
    rw [failCalls_eq hspin] at hout
    obtain ⟨h1,h2,h3,h4⟩ := h.withCalls countP_map_fail hout
    exact ⟨h1, h2, h3, h4⟩
  | destroy _ hchan hclose hdec => exact h.destroy hchan hclose hdec

theorem counted_init (retrans : Bool) (clock : Timespec) (lossytest : Bool) :
    (init retrans clock lossytest).Counted := by
  refine ⟨⟨fun d o ho => ?_, fun d _ => rfl⟩, fun d hl => ?_, fun d _ => rfl, fun call hc => ?_⟩
  · cases ho
  · obtain ⟨o,ho,-⟩ := hl
    cases ho
  · cases hc

/-- Once the client is destroyed nothing is left. -/
theorem Counted.gone {e : LoopEvent} (h : s.Counted) (hstep : s.step e = some s')
    (hd : s'.destroyed = true) : ∀ d, s'.objs d = none := by
  have h' := h.step hstep
  obtain ⟨hnot,hm⟩ := step_moves hstep
  have hgone : (∀ call ∈ s'.calls, call.pc = .returned) → s'.chan = none →
    ∀ d, s'.objs d = none := by
    intro hcalls hchan d
    by_contra hsome
    obtain ⟨o,ho⟩ := Option.ne_none_iff_exists'.mp hsome
    have hheld := h'.held ho
    have hzero : s'.calls.countP (fun call => call.ch = some d) = 0 := by
      apply List.countP_eq_zero.mpr
      intro call hcall
      simp [h'.out call hcall (hcalls call hcall)]
    unfold holders at hheld
    simp [hchan, hzero] at hheld
  cases hm with
  | destroyNone hcalls hchan => exact hgone hcalls hchan
  | destroy hcalls => exact hgone hcalls rfl
  | refconn hc hpc hget =>
    obtain ⟨-,⟨objs,next,chan,rfl⟩,-⟩ := getRefconn_frame hget
    exact absurd (hnot.symm.trans hd) (by simp)
  | _ => exact absurd (hnot.symm.trans hd) (by simp)

/-- The references are counted right, so that no step uses a connection that was deleted, none is
left behind by the calls, and only `chan_` is alive. -/
structure Held (s : CallLoop) : Prop where
  counted : ∀ d o, s.objs d = some o → o.refno = s.holders d ∧ 0 < s.holders d
  present : ∀ d, 0 < s.holders d → (s.objs d).isSome
  alive : ∀ d o, s.objs d = some o → o.dead = false → s.chan = some d
  refconn : ∀ c call connects, s.destroyed = false → s.calls[c]? = some call →
    call.pc = .connecting → (s.step (.refconn c connects)).isSome
  send : ∀ c call, s.destroyed = false → s.calls[c]? = some call → call.pc = .sending →
    (s.step (.send c)).isSome
  resend : ∀ c call, s.destroyed = false → s.jammed = false → s.calls[c]? = some call →
    call.pc = .sending → call.ch.isSome → s.dupReq.isSome → (s.step (.resend c)).isSome
  look : ∀ (c : ℕ) (call : LoopCall), s.calls[c]? = some call → (s.lost call.ch).isSome
  drop : ∀ c call, s.destroyed = false → s.calls[c]? = some call → call.pc = .dropping →
    (releaseObj call.ch s.objs).isSome ∧
      (s.jammed = false ∨ s.lossytest = false → (s.step (.drop c)).isSome)
  destroy : s.destroyed = false → s.jammed = false → (∀ call ∈ s.calls, call.pc = .returned) →
    (∀ k ∈ s.cancels, k = .returned) → (s.step .destroy).isSome
  gone : s.destroyed = true → ∀ d, s.objs d = none

theorem callAt_some {pc : CallPc} (hc : s.calls[c]? = some call) (hpc : call.pc = pc) :
    s.callAt c pc = some call := by
  rw [callAt, hc, Option.bind_some, if_pos hpc]

theorem Counted.lost (h : s.Counted) (hc : s.calls[c]? = some call) :
    ∃ lost, s.lost call.ch = some lost := by
  rcases hch : call.ch with _ | d
  · exact ⟨true, rfl⟩
  · obtain ⟨o,ho⟩ := h.counts.exists (holders_of_call hc hch)
    exact ⟨o.dead, Option.map_eq_some_iff.mpr ⟨o, ho, rfl⟩⟩

theorem Counted.holds (h : s.Counted) (hover : s.destroyed = true → ∀ d, s.objs d = none) :
    s.Held := by
  refine ⟨fun d o ho => ⟨(h.counts.refno d o ho).1, h.held ho⟩, fun d hd => ?_,
    fun d o ho hlive => h.living d ⟨o, ho, hlive⟩, fun c call connects hd hc hpc => ?_,
    fun c call hd hc hpc => ?_, fun c call hd hj hc hpc hch hdup => ?_, fun c call hc => ?_,
    fun c call hd hc hpc => ?_, fun hd hj hcalls hcancels => ?_, hover⟩
  · obtain ⟨o,ho⟩ := h.counts.exists hd
    rw [ho]
    rfl
  · obtain ⟨s₁,ch,hget,-⟩ := h.refconn hc connects
    simp [CallLoop.step, hd, move, callAt_some hc hpc, hget]
  · obtain ⟨lost,hlost⟩ := h.lost hc
    rcases hch : call.ch with _ | d
    · simp [CallLoop.step, hd, move, callAt_some hc hpc, hch]
    · obtain ⟨o,ho⟩ := h.counts.exists (holders_of_call hc hch)
      simp [CallLoop.step, hd, move, callAt_some hc hpc, hch, ho]
  · obtain ⟨d,hch⟩ := Option.isSome_iff_exists.mp hch
    obtain ⟨j,hj'⟩ := Option.isSome_iff_exists.mp hdup
    obtain ⟨o,ho⟩ := h.counts.exists (holders_of_call hc hch)
    simp [CallLoop.step, hd, move, hj, callAt_some hc hpc, hch, hj', ho]
  · obtain ⟨lost,hlost⟩ := h.lost hc
    rw [hlost]
    rfl
  · obtain ⟨objs,hrel,-⟩ := h.counts.release (fun e he => holders_of_call hc he)
    refine ⟨by rw [hrel]; rfl, fun hfree => ?_⟩
    have hkeep : s.jammed = true → s.keeps call = false := by
      intro hj
      rw [keeps, hfree.resolve_left (by simp [hj]), Bool.and_false]
    simpa [CallLoop.step, hd, move, callAt_some hc hpc, hrel] using hkeep
  · rw [show s.step .destroy = s.move .destroy by simp [CallLoop.step, hd]]
    simp only [move]
    rw [if_pos ⟨by simpa using hcalls, by simpa using hcancels, by simp [hj]⟩]
    split
    · rfl
    · rename_i d hchan
      obtain ⟨objs,hclose,hcounts⟩ := h.counts.close (holders_of_chan hchan)
      obtain ⟨objs',hdec,-⟩ := hcounts.decref (holders_of_chan hchan)
      simp [hclose, hdec]

/-- In every run. -/
theorem connections_held {retrans lossytest : Bool} {clock : Timespec} {es : List LoopEvent}
    (hrun : TraceSystem.run CallLoop.step (init retrans clock lossytest) es = some s) : s.Held := by
  have h : s.Counted ∧ (s.destroyed = true → ∀ d, s.objs d = none) := by
    refine TraceSystem.run_invariant
      (I := fun s => s.Counted ∧ (s.destroyed = true → ∀ d, s.objs d = none)) ?_ ?_ hrun
    · intro r e r' hr hstep
      exact ⟨hr.1.step hstep, hr.1.gone hstep⟩
    · exact ⟨counted_init retrans clock lossytest, fun hd => absurd hd (by simp [init])⟩
  exact h.1.holds h.2

end

/-- The connection of a call dies, and its request goes out on another one. -/
def resent : List LoopEvent :=
  [.enter 3000, .start 0, .refconn 0 true, .send 0, .arm 0, .die 0, .tick ⟨1001, 0⟩, .timeout 0,
    .look 0, .refconn 0 true, .send 0, .arm 0, .reply 0 0, .wake 0, .leave 0 0, .drop 0, .destroy]

theorem connections_held_resent : ∃ s, TraceSystem.run CallLoop.step (init true ⟨1000, 0⟩) resent =
    some s ∧ s.Held ∧ s.nextConn = 2 ∧ s.destroyed = true := by
  obtain ⟨s,hrun,h⟩ := TraceSystem.reaches_of_any CallLoop.step
    (fun s => s.nextConn = 2 ∧ s.destroyed = true) (init true ⟨1000, 0⟩) resent (by decide +kernel)
  exact ⟨s, hrun, connections_held hrun, h⟩

end CallLoop

end DisconnectedYfs.RPC
