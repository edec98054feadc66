import DisconnectedYfs.RPCAtMostOnce
import DisconnectedYfs.RPCServer

/-! Which requests the server remembers while their handlers run. An entry leaves the window by
acknowledgement alone, and a client also acknowledges calls that it has given up; so the entry of
a running handler stays exactly as long as no request arrives that acknowledges it. -/
namespace DisconnectedYfs.RPC
open TraceSystem

/-- `reply_window_` has an entry for the request. -/
def Server.Remembers (s : Server) (h : ReqHeader) : Prop :=
  h.xid.toUInt32.toNat ∈ s.tables.remembered h.cltNonce.toNat

/-- `dispatch` passes the request to `checkduplicate_and_update`. -/
def Server.Checks (s : Server) (h : ReqHeader) : Prop := ¬ s.refuses h ∧ h.cltNonce ≠ 0

/-- No request arrives that acknowledges a request of its client whose handler is running. -/
def sparesRunning (s : Net) : NetEvent → Prop
  | .deliver h => s.server.Checks h → ∀ r ∈ s.server.running,
      r.cltNonce = h.cltNonce → h.xidRep.toUInt32 < r.xid.toUInt32
  | _ => True

structure WindowInv (s : Server) : Prop where
  ordered : ∀ n, Ordered (s.tables.window n)
  remembers : ∀ h ∈ s.running, h.cltNonce ≠ 0 → s.Remembers h

theorem toNat_ne_zero {n : UInt32} (h : n ≠ 0) : n.toNat ≠ 0 := by
  intro hz
  exact h (UInt32.toNat_inj.mp hz)

/-- A client without at-most-once does not touch the tables. -/
theorem check_zero {s : Server} {h : ReqHeader} {t : Rpcs} {v : RpcState} (hn : h.cltNonce = 0)
    (hv : s.check h = some (t, v)) : t = s.tables ∧ v = .new := by
  unfold Server.check dispatchCheck at hv
  rw [hn, if_neg (by decide)] at hv
  obtain ⟨rfl,rfl⟩ := Option.some.inj hv
  exact ⟨rfl, rfl⟩

theorem check_nonzero {s : Server} {h : ReqHeader} {t : Rpcs} {v : RpcState}
    (hn : h.cltNonce ≠ 0) (hv : s.check h = some (t, v)) :
    checkduplicateAndUpdate s.tables h.cltNonce.toNat h.xid.toUInt32.toNat
      h.xidRep.toUInt32.toNat = some (t, v) := by
  unfold Server.check dispatchCheck at hv
  rwa [if_pos (toNat_ne_zero hn)] at hv

/-- A request of another client, or one that does not acknowledge it, leaves the entry of a
request. -/
theorem check_remembers {s : Server} {h r : ReqHeader} {t : Rpcs} {v : RpcState}
    (hw : WindowInv s) (hn : h.cltNonce ≠ 0) (hv : s.check h = some (t, v))
    (hr : s.Remembers r) (hack : r.cltNonce = h.cltNonce → h.xidRep.toUInt32 < r.xid.toUInt32) :
    r.xid.toUInt32.toNat ∈ t.remembered r.cltNonce.toNat := by
  have hc := check_nonzero hn hv
  by_cases hne : r.cltNonce = h.cltNonce
  · have hspec := check_spec (hw.ordered _) hc
    have hr' : r.xid.toUInt32.toNat ∈ s.tables.remembered h.cltNonce.toNat := hne ▸ hr
    rw [hne]
    rcases hspec.verdict with ⟨-,-,hwin⟩ | ⟨-,-,hmem⟩
    · rw [Rpcs.remembered, hwin]
      exact hr'
    · exact (hmem _).mpr (Or.inr ⟨hr', hack hne⟩)
  · have hframe := check_frame (m := r.cltNonce.toNat) (fun h' => hne (UInt32.toNat_inj.mp h').symm)
      hc
    rw [Rpcs.remembered, hframe.1]
    exact hr

/-- A request classified `NEW` has an entry afterwards. -/
theorem check_new_remembers {s : Server} {h : ReqHeader} {t : Rpcs} (hw : WindowInv s)
    (hn : h.cltNonce ≠ 0) (hv : s.check h = some (t, .new)) :
    h.xid.toUInt32.toNat ∈ t.remembered h.cltNonce.toNat := by
  have hspec := check_spec (hw.ordered _) (check_nonzero hn hv)
  rcases hspec.verdict with ⟨-,hforgotten,-⟩ | ⟨-,-,hmem⟩
  · contradiction
  · exact (hmem _).mpr (Or.inl rfl)

theorem check_ordered {s : Server} {h : ReqHeader} {t : Rpcs} {v : RpcState}
    (ho : ∀ n, Ordered (s.tables.window n)) (hv : s.check h = some (t, v)) (n : ℕ) :
    Ordered (t.window n) := by
  by_cases hn : h.cltNonce = 0
  · obtain ⟨rfl,-⟩ := check_zero hn hv
    exact ho n
  · have hc := check_nonzero hn hv
    by_cases hne : h.cltNonce.toNat = n
    · subst hne
      exact (check_spec (ho _) hc).ordered
    · rw [(check_frame hne hc).1]
      exact ho n

theorem dispatch_windowInv {s s' : Server} {h : ReqHeader} {out : List Bytes} (hw : WindowInv s)
    (hspare : s.Checks h → ∀ r ∈ s.running,
      r.cltNonce = h.cltNonce → h.xidRep.toUInt32 < r.xid.toUInt32)
    (hd : s.dispatch h = some (s', out)) : WindowInv s' := by
  rcases Server.dispatch_cases hd with ⟨-,rfl,-⟩ | ⟨href,t,v,hv,rfl,-⟩
  · exact hw
  · by_cases hn : h.cltNonce = 0
    · obtain ⟨rfl,rfl⟩ := check_zero hn hv
      refine ⟨hw.ordered, fun r hr hrn => ?_⟩
      rcases List.mem_cons.mp hr with rfl | hr
      · contradiction
      · exact hw.remembers r hr hrn
    · refine ⟨check_ordered hw.ordered hv, fun r hr hrn => ?_⟩
      have hold : ∀ r ∈ s.running, r.cltNonce ≠ 0 →
          r.xid.toUInt32.toNat ∈ t.remembered r.cltNonce.toNat :=
        fun r hr hrn => check_remembers hw hn hv (hw.remembers r hr hrn) (hspare ⟨href, hn⟩ r hr)
      by_cases hnew : v = .new
      · subst hnew
        rcases List.mem_cons.mp hr with rfl | hr
        · exact check_new_remembers hw hn hv
        · exact hold r hr hrn
      · change r ∈ (if v = .new then h :: s.running else s.running) at hr
        rw [if_neg hnew] at hr
        exact hold r hr hrn

theorem addReply_ordered {t t' : Rpcs} {n m x : ℕ} {b : Bytes} {sz : ℕ}
    (h : addReply t n x b sz = some t') (ho : Ordered (t.window m)) : Ordered (t'.window m) := by
  have hmap : (t'.window m).map Reply.xid = (t.window m).map Reply.xid := (addReply_frame h).1
  have ho' : ((t.window m).map Reply.xid).Pairwise (· ≤ ·) := List.pairwise_map.mpr ho
  rw [← hmap] at ho'
  exact List.pairwise_map.mp ho'

theorem reply_windowInv {s s' : Server} {h : ReqHeader} {ret : Int32} {body b : Bytes}
    (hw : WindowInv s) (hr : s.reply h ret body = some (s', b)) : WindowInv s' := by
  obtain ⟨-,-,-,t,rfl,hcase⟩ := Server.reply_cases hr
  rcases hcase with ⟨-,rfl⟩ | ⟨-,hadd⟩
  · exact ⟨hw.ordered, fun r hr => hw.remembers r (List.mem_of_mem_erase hr)⟩
  · refine ⟨fun n => addReply_ordered hadd (hw.ordered n), fun r hr hrn => ?_⟩
    change r.xid.toUInt32.toNat ∈ t.remembered r.cltNonce.toNat
    rw [(addReply_frame hadd).1]
    exact hw.remembers r (List.mem_of_mem_erase hr) hrn

theorem windowInv_step {s s' : Net} {e : NetEvent} (hw : WindowInv s.server)
    (hspare : sparesRunning s e) (h : s.step e = some s') : WindowInv s'.server := by
  have hc := Net.step_cases h
  cases e with
  | deliver r =>
    obtain ⟨-,srv,out,hd,rfl⟩ := hc
    exact dispatch_windowInv hw hspare hd
  | handled r ret body =>
    obtain ⟨srv,b,hr,rfl⟩ := hc
    exact reply_windowInv hw hr
  | transmit id =>
    obtain ⟨ca,-,-,rfl⟩ := hc
    exact hw
  | gotPdu b =>
    obtain ⟨-,rfl⟩ := hc
    exact hw
  | start id proc =>
    obtain ⟨k,-,rfl⟩ := hc
    exact hw
  | finish id =>
    obtain ⟨k,-,rfl⟩ := hc
    exact hw
  | bind id =>
    obtain ⟨k,-,rfl⟩ := hc
    exact hw

theorem fillReply_isSome {x : ℕ} {b : Bytes} {sz : ℕ} {w : List Reply}
    (h : x ∈ w.map Reply.xid) : (fillReply x b sz w).isSome = true := by
  induction w with
  | nil => cases h
  | cons a w ih =>
    unfold fillReply
    split_ifs with ha
    · rfl
    · rw [List.map_cons, List.mem_cons] at h
      rw [Option.isSome_map]
      exact ih (h.resolve_left (fun hx => ha hx.symm))

/-- As long as no arriving request acknowledges a running one, every running handler has its
entry in the window, so `add_reply` finds it. -/
theorem running_handler_remembered (cltNonce nonce : UInt32) (procs : Int32 → Bool)
    (es : List NetEvent) (s : Net) (hrun : run Net.step (Net.init cltNonce nonce procs) es = some s)
    (hspare : Meets Net.step sparesRunning (Net.init cltNonce nonce procs) es) :
    ∀ h ∈ s.server.running, h.cltNonce ≠ 0 → s.server.Remembers h ∧
      ∀ b sz, (addReply s.server.tables h.cltNonce.toNat h.xid.toUInt32.toNat b sz).isSome
        = true := by
  have hw : WindowInv s.server := by
    refine Meets.invariant (I := fun s => WindowInv s.server) ?_ ?_ hspare hrun
    · intro r e r' hr hc hstep
      exact windowInv_step hr hc hstep
    · refine ⟨fun n => ?_, fun h hh => by cases hh⟩
      exact List.Pairwise.nil
  intro h hh hn
  have hrem := hw.remembers h hh hn
  refine ⟨hrem, fun b sz => ?_⟩
  unfold addReply
  rw [if_pos (Nat.pos_of_ne_zero (toNat_ne_zero hn)), Option.isSome_map]
  exact fillReply_isSome hrem

/-- The script of a client's bind call, which takes xid 1. -/
def binds (cltNonce nonce : UInt32) : List NetEvent :=
  let h : ReqHeader := { xid := 1, proc := 1, cltNonce := cltNonce, srvNonce := 0, xidRep := 0 }
  [.start 0 1, .transmit 0, .deliver h, .handled h 0 (be32 nonce),
    .gotPdu (replyBuf ⟨1, 0⟩ (be32 nonce)), .finish 0, .bind 0]

/-- Two calls after it, of which the first is still in its handler when the second arrives. -/
def slowHandler (xidRep : Int32) : List NetEvent :=
  let h₂ : ReqHeader := { xid := 2, proc := 7, cltNonce := 5, srvNonce := 9, xidRep := 1 }
  let h₃ : ReqHeader := { xid := 3, proc := 7, cltNonce := 5, srvNonce := 9, xidRep := xidRep }
  [.start 1 7, .transmit 1, .deliver h₂] ++ (if xidRep = 2 then [.finish 1] else []) ++
    [.start 2 7, .transmit 2, .deliver h₃]

instance (s : Server) (h : ReqHeader) : Decidable (s.Remembers h) :=
  inferInstanceAs (Decidable (_ ∈ _))

instance (s : Server) (h : ReqHeader) : Decidable (s.Checks h) :=
  inferInstanceAs (Decidable (_ ∧ _))

instance (s : Net) : (e : NetEvent) → Decidable (sparesRunning s e)
  | .deliver h => inferInstanceAs (Decidable (s.server.Checks h → ∀ r ∈ s.server.running,
      r.cltNonce = h.cltNonce → h.xidRep.toUInt32 < r.xid.toUInt32))
  | .start .. | .transmit .. | .handled .. | .gotPdu .. | .finish .. | .bind .. => .isTrue trivial

theorem running_handler_remembered_two :
    let h₂ : ReqHeader := { xid := 2, proc := 7, cltNonce := 5, srvNonce := 9, xidRep := 1 }
    ∃ s, run Net.step (Net.init 5 9 (fun _ => true)) (binds 5 9 ++ slowHandler 1) = some s ∧
      h₂ ∈ s.server.running ∧ s.server.Remembers h₂ ∧
      ∀ b sz, (addReply s.server.tables h₂.cltNonce.toNat h₂.xid.toUInt32.toNat b sz).isSome
        = true := by
  intro h₂
  obtain ⟨s,hrun,hs⟩ := reaches_of_any Net.step (fun s => h₂ ∈ s.server.running)
    (Net.init 5 9 (fun _ => true)) (binds 5 9 ++ slowHandler 1) (by decide +kernel)
  exact ⟨s, hrun, hs, running_handler_remembered 5 9 (fun _ => true) _ s hrun (by decide +kernel)
    h₂ hs (by decide)⟩

/-- The first of the two calls times out before the second is made: the second acknowledges it,
its entry goes, and its handler, which is still running, has nowhere to put the reply. -/
theorem evicted_while_running :
    let h₂ : ReqHeader := { xid := 2, proc := 7, cltNonce := 5, srvNonce := 9, xidRep := 1 }
    ∃ s, run Net.step (Net.init 5 9 (fun _ => true)) (binds 5 9 ++ slowHandler 2) = some s ∧
      h₂ ∈ s.server.running ∧ h₂.cltNonce ≠ 0 ∧ ¬ s.server.Remembers h₂ ∧
      addReply s.server.tables h₂.cltNonce.toNat h₂.xid.toUInt32.toNat (replyBuf ⟨2, 0⟩ []) 24
        = none := by
  intro h₂
  obtain ⟨s,hrun,hs⟩ := reaches_of_any Net.step
    (fun s => h₂ ∈ s.server.running ∧ ¬ s.server.Remembers h₂ ∧
      (addReply s.server.tables h₂.cltNonce.toNat h₂.xid.toUInt32.toNat (replyBuf ⟨2, 0⟩ [])
        24).isNone = true)
    (Net.init 5 9 (fun _ => true)) (binds 5 9 ++ slowHandler 2) (by decide +kernel)
  exact ⟨s, hrun, hs.1, by decide, hs.2.1, Option.isNone_iff_eq_none.mp hs.2.2⟩

end DisconnectedYfs.RPC
