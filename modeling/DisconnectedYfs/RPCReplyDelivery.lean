import DisconnectedYfs.RPCStoredReplies

/-! Replies reach the right caller. A call is registered in `calls_` from its start on without a
gap, so the first reply with its xid that comes while it waits is the one it gets; and a reply
that is not a failure was made by a handler for that client and xid. Nothing here needs xids to be
unique: a later call with the same xid only takes the registration away. -/
namespace DisconnectedYfs.RPC
open TraceSystem
attribute [local irreducible] parseReply

/-- A reply that arrives while call `id` has not returned and that carries its xid is noted if it
is the first. -/
def noteReply (id : ℕ) (k : Rpcc) (e : NetEvent) (first : Option (ReplyHeader × Bytes)) :
    Option (ReplyHeader × Bytes) :=
  match e, k.caller id, first with
  | .gotPdu b, some ca, none =>
    (parseReply b).filter (fun r => !ca.returned && r.1.xid.toUInt32 == ca.xid)
  | _, _, first => first

/-- The first reply PDU with the xid of call `id` that arrives while it is outstanding. -/
def firstReply (s : Net) (es : List NetEvent) (id : ℕ) : Option (ReplyHeader × Bytes) :=
  observed Net.step (fun s e _ => noteReply id s.client e) s none es

/-- What the first reply tells about a call: it is what the call got, and a registered call
without a reply has had none. -/
structure Delivered (k : Rpcc) (id : ℕ) (first : Option (ReplyHeader × Bytes)) : Prop where
  fresh : k.caller id = none → first = none
  got : ∀ ca, k.caller id = some ca → ca.done = true →
    ∃ h, first = some (h, ca.un) ∧ h.xid.toUInt32 = ca.xid ∧ h.ret = ca.intret
  waiting : ∀ ca, k.caller id = some ca → ca.done = false → k.calls ca.xid = some id → first = none

/-- `calls_` has only calls that have not returned, under their own xids. -/
def Registered (k : Rpcc) : Prop := ∀ x id, k.calls x = some id →
  ∃ ca, k.caller id = some ca ∧ ca.xid = x ∧ ca.returned = false

/-- A call that goes on under its xid stays registered. -/
theorem Registered.set {k : Rpcc} (hreg : Registered k) {j : ℕ} {cj cj' : Caller}
    (hcj : k.caller j = some cj) (hx : cj'.xid = cj.xid) (hr : cj'.returned = cj.returned) :
    ∀ x id, k.calls x = some id → ∃ ca, Function.update k.caller j (some cj') id = some ca ∧
      ca.xid = x ∧ ca.returned = false := by
  intro x id hid
  obtain ⟨ca,hca,hcx,hret⟩ := hreg x id hid
  by_cases hne : id = j
  · subst hne
    rw [hcj] at hca
    obtain rfl := Option.some.inj hca
    exact ⟨cj', Function.update_self _ _ _, hx.trans hcx, hr.trans hret⟩
  · exact ⟨ca, (Function.update_of_ne hne _ _).trans hca, hcx, hret⟩

theorem Registered.gotPdu {k : Rpcc} (hreg : Registered k) (b : Bytes) :
    Registered (k.gotPdu b) := by
  rcases k.gotPdu_cases b with ⟨-,heq⟩ | ⟨h,body,-,⟨-,heq⟩ | ⟨j,hj,heq⟩⟩
  · rw [heq]
    exact hreg
  · rw [heq]
    exact hreg
  · obtain ⟨cj,hcj,-,-⟩ := hreg _ j hj
    obtain ⟨htx,-,htr,-⟩ := takeReply_frame cj h body
    rw [heq, hcj]
    exact hreg.set hcj htx htr

theorem start_delivered {k k' : Rpcc} {j : ℕ} {proc : Int32} (hreg : Registered k)
    (h : k.start j proc = some k') : Registered k' ∧
    ∀ id first, Delivered k id first → Delivered k' id first := by
  obtain ⟨hj,rfl | ⟨-,rfl⟩⟩ := Rpcc.start_cases h
  · exact ⟨hreg, fun _ _ h => h⟩
  · refine ⟨fun x id hid => ?_, fun id first hd => ⟨fun hnone => ?_, fun ca hca hdone => ?_,
      fun ca hca hdone hcalls => ?_⟩⟩
    · rcases update_eq_some hid with ⟨rfl,hid'⟩ | ⟨-,hid⟩
      · obtain rfl := Option.some.inj hid'
        exact ⟨k.newCaller proc, Function.update_self _ _ _, rfl, rfl⟩
      · obtain ⟨ca,hca,hcx,hr⟩ := hreg x id hid
        have hne : id ≠ j := by
          rintro rfl
          rw [hj] at hca
          cases hca
        exact ⟨ca, (Function.update_of_ne hne _ _).trans hca, hcx, hr⟩
    · exact hd.fresh (update_eq_none hnone).2
    · rcases caller_update hca with ⟨rfl,rfl⟩ | ⟨-,hca⟩
      · cases hdone
      · exact hd.got ca hca hdone
    · rcases caller_update hca with ⟨rfl,rfl⟩ | ⟨hne,hca⟩
      · exact hd.fresh hj
      · rcases update_eq_some hcalls with ⟨-,hid⟩ | ⟨-,hid⟩
        · exact absurd (Option.some.inj hid).symm hne
        · exact hd.waiting ca hca hdone hid

theorem finish_delivered {k k' : Rpcc} {j : ℕ} (hreg : Registered k)
    (h : k.finish j = some k') : Registered k' ∧
    ∀ id first, Delivered k id first → Delivered k' id first := by
  obtain ⟨cj,hcj,-,rfl⟩ := Rpcc.finish_cases h
  have hcalls : ∀ x id, Function.update k.calls cj.xid none x = some id →
      x ≠ cj.xid ∧ k.calls x = some id := by
    intro x id hid
    rcases update_eq_some hid with ⟨-,hid⟩ | hid
    · cases hid
    · exact hid
  refine ⟨fun x id hid => ?_, fun id first hd => ⟨fun hnone => ?_, fun ca hca hdone => ?_,
    fun ca hca hdone hid => ?_⟩⟩
  · obtain ⟨hx,hid⟩ := hcalls x id hid
    obtain ⟨ca,hca,hcx,hr⟩ := hreg x id hid
    have hne : id ≠ j := by
      rintro rfl
      rw [hcj] at hca
      obtain rfl := Option.some.inj hca
      exact hx hcx.symm
    exact ⟨ca, (Function.update_of_ne hne _ _).trans hca, hcx, hr⟩
  · exact hd.fresh (update_eq_none hnone).2
  · rcases caller_update hca with ⟨rfl,rfl⟩ | ⟨-,hca⟩
    · exact hd.got cj hcj hdone
    · exact hd.got ca hca hdone
  · obtain ⟨hx,hid⟩ := hcalls ca.xid id hid
    rcases caller_update hca with ⟨rfl,rfl⟩ | ⟨-,hca⟩
    · exact absurd rfl hx
    · exact hd.waiting ca hca hdone hid

theorem bind_delivered {k k' : Rpcc} {j : ℕ} (hreg : Registered k)
    (h : k.bind j = some k') : Registered k' ∧
    ∀ id first, Delivered k id first → Delivered k' id first := by
  obtain ⟨cj,r,u,hcj,-,-,-,-,-,rfl⟩ := Rpcc.bind_cases h
  refine ⟨hreg.set hcj rfl rfl, fun id first hd => ⟨fun hnone => ?_, fun ca hca hdone => ?_,
    fun ca hca hdone hid => ?_⟩⟩
  · exact hd.fresh (update_eq_none hnone).2
  · rcases caller_update hca with ⟨rfl,rfl⟩ | ⟨-,hca⟩
    · exact hd.got cj hcj hdone
    · exact hd.got ca hca hdone
  · rcases caller_update hca with ⟨rfl,rfl⟩ | ⟨-,hca⟩
    · exact hd.waiting cj hcj hdone hid
    · exact hd.waiting ca hca hdone hid

theorem noteReply_some (id : ℕ) (k : Rpcc) (e : NetEvent) (r : ReplyHeader × Bytes) :
    noteReply id k e (some r) = some r := by
  unfold noteReply
  split
  · contradiction
  · rfl

theorem noteReply_fresh {id : ℕ} {k : Rpcc} {e : NetEvent} {first : Option (ReplyHeader × Bytes)}
    (h : k.caller id = none) : noteReply id k e first = first := by
  unfold noteReply
  rw [h]
  cases e <;> rfl

theorem noteReply_gotPdu {id : ℕ} {k : Rpcc} {b : Bytes} {ca : Caller}
    (h : k.caller id = some ca) : noteReply id k (.gotPdu b) none =
      (parseReply b).filter (fun r => !ca.returned && r.1.xid.toUInt32 == ca.xid) := by
  unfold noteReply
  rw [h]

/-- A reply that the call does not take: it has one, or the reply is not for it, or another call
is registered under the xid. -/
theorem Delivered.untouched {s : Net} {k : Rpcc} {id : ℕ} {b : Bytes}
    {first : Option (ReplyHeader × Bytes)} (hd : Delivered s.client id first)
    (hcaller : k.caller id = s.client.caller id) (hcalls : k.calls = s.client.calls)
    (hnot : ∀ h body, parseReply b = some (h, body) → s.client.calls h.xid.toUInt32 ≠ some id) :
    Delivered k id (noteReply id s.client (.gotPdu b) first) := by
  refine ⟨fun hnone => ?_, fun ca hca hdone => ?_, fun ca hca hdone hid => ?_⟩
  · rw [hcaller] at hnone
    rw [noteReply_fresh hnone]
    exact hd.fresh hnone
  · rw [hcaller] at hca
    obtain ⟨h,hfirst,hx,hr⟩ := hd.got ca hca hdone
    rw [hfirst, noteReply_some]
    exact ⟨h, rfl, hx, hr⟩
  · rw [hcaller] at hca
    rw [hcalls] at hid
    rw [hd.waiting ca hca hdone hid, noteReply_gotPdu hca]
    cases hp : parseReply b with
    | none => rfl
    | some r =>
      have hx : r.1.xid.toUInt32 ≠ ca.xid := by
        intro hx
        exact hnot r.1 r.2 hp (hx ▸ hid)
      simp [Option.filter, hx]

/-- The reply that arrives is noted for the call, and taken by it if it is registered. -/
theorem gotPdu_delivered {s : Net} {b : Bytes} (hreg : Registered s.client) {id : ℕ}
    {first : Option (ReplyHeader × Bytes)} (hd : Delivered s.client id first) :
    Delivered (s.client.gotPdu b) id (noteReply id s.client (.gotPdu b) first) := by
  rcases s.client.gotPdu_cases b with ⟨hp,heq⟩ | ⟨h,body,hp,⟨hnone,heq⟩ | ⟨j,hj,heq⟩⟩
  · rw [heq]
    refine hd.untouched rfl rfl (fun h body hp' => ?_)
    rw [hp] at hp'
    cases hp'
  · rw [heq]
    refine hd.untouched rfl rfl (fun h' body' hp' => ?_)
    rw [hp] at hp'
    obtain ⟨rfl,rfl⟩ := Option.some.inj hp'
    rw [hnone]
    simp
  · obtain ⟨cj,hcj,hxj,hrj⟩ := hreg _ j hj
    obtain ⟨htx,-,htr,htd⟩ := takeReply_frame cj h body
    rw [heq, hcj, Option.map_some]
    by_cases hne : id = j
    · subst hne
      refine ⟨fun hnone => absurd rfl (update_eq_none hnone).1, fun ca hca hdone => ?_,
        fun ca hca hdone _ => ?_⟩
      · rcases caller_update hca with ⟨-,rfl⟩ | ⟨hne,-⟩
        swap
        · exact absurd rfl hne
        by_cases hd' : cj.done = true
        · obtain ⟨h',hfirst,hx',hr'⟩ := hd.got cj hcj hd'
          rw [hfirst, noteReply_some]
          unfold Caller.takeReply
          rw [if_pos hd']
          exact ⟨h', rfl, hx', hr'⟩
        · have hfirst := hd.waiting cj hcj (Bool.not_eq_true _ ▸ hd') (hxj ▸ hj)
          rw [hfirst, noteReply_gotPdu hcj, hp]
          unfold Caller.takeReply
          rw [if_neg hd']
          exact ⟨h, by simp [Option.filter, hrj, hxj], hxj.symm, rfl⟩
      · rcases caller_update hca with ⟨-,rfl⟩ | ⟨hne,-⟩
        · rw [htd] at hdone
          cases hdone
        · exact absurd rfl hne
    · refine hd.untouched (Function.update_of_ne hne _ _) rfl (fun h' body' hp' => ?_)
      rw [hp] at hp'
      obtain ⟨rfl,rfl⟩ := Option.some.inj hp'
      rw [hj]
      intro hji
      exact hne (Option.some.inj hji).symm

/-! Where replies come from. -/

/-- If the buffer is a reply and no failure, a handler made it for client `n` and id `x`. -/
def Made (es : List NetEvent) (n x : ℕ) (b : Bytes) : Prop :=
  ∀ h body, parseReply b = some (h, body) → 0 ≤ h.ret → ∃ r, NetEvent.handled r h.ret body ∈ es ∧
    r.cltNonce.toNat = n ∧ r.xid.toUInt32.toNat = x ∧ r.xid = h.xid

theorem Made.snoc {es : List NetEvent} {n x : ℕ} {b : Bytes} (h : Made es n x b) (e : NetEvent) :
    Made (es ++ [e]) n x b := by
  intro h' body hp hpos
  obtain ⟨r,hr,hrest⟩ := h h' body hp hpos
  exact ⟨r, List.mem_append_left _ hr, hrest⟩

/-- Failures are not made by handlers. -/
theorem made_failure (es : List NetEvent) (n x : ℕ) {h : ReplyHeader} (hneg : ¬ 0 ≤ h.ret) :
    Made es n x (replyBuf h []) := by
  intro h' body hp hpos
  have hlen : (replyBuf h []).length < 2^31 := by
    rw [replyBuf_length]
    decide
  rw [parseReply_replyBuf h [] hlen] at hp
  obtain ⟨rfl,rfl⟩ := Option.some.inj hp
  exact absurd hpos hneg

theorem made_nil (es : List NetEvent) (n x : ℕ) : Made es n x [] := by
  intro h body hp
  have hnone : parseReply [] = none := by decide +kernel
  rw [hnone] at hp
  cases hp

theorem made_reply (es : List NetEvent) {s s' : Server} {r : ReqHeader} {ret : Int32}
    {body b : Bytes} (hr : s.reply r ret body = some (s', b)) :
    Made (es ++ [.handled r ret body]) r.cltNonce.toNat r.xid.toUInt32.toNat b := by
  obtain ⟨-,hmay,hb,-⟩ := Server.reply_cases hr
  obtain ⟨-,hlen,-⟩ := of_decide_eq_true hmay
  intro h body' hp _
  rw [hb, parseReply_replyBuf _ _ hlen] at hp
  obtain ⟨rfl,rfl⟩ := Option.some.inj hp
  exact ⟨r, List.mem_append_right _ (List.mem_singleton.mpr rfl), rfl, rfl, rfl⟩

/-- Everything on the way belongs to the one client with nonce `n`, and the replies among it were
made for its requests. -/
structure SourceInv (n : UInt32) (es : List NetEvent) (s : Net) : Prop where
  nonce : s.client.cltNonce = n
  callers : ∀ id ca, s.client.caller id = some ca → ca.req.cltNonce = n
  requests : ∀ r ∈ s.requests, r.cltNonce = n
  running : ∀ r ∈ s.server.running, r.cltNonce = n
  stored : Stores (Made es) s.server.tables
  replies : ∀ b ∈ s.replies, ∃ x, Made es n.toNat x b

theorem SourceInv.client_step {n : UInt32} {es : List NetEvent} {s : Net} (hs : SourceInv n es s)
    (e : NetEvent) {k : Rpcc} (hnonce : k.cltNonce = s.client.cltNonce)
    (hcallers : ∀ id ca, k.caller id = some ca → ca.req.cltNonce = n) :
    SourceInv n (es ++ [e]) { s with client := k } where
  nonce := hnonce.trans hs.nonce
  callers := hcallers
  requests := hs.requests
  running := hs.running
  stored := hs.stored.mono (fun _ _ _ h => h.snoc e)
  replies b hb := (hs.replies b hb).imp (fun _ h => h.snoc e)

/-- No client step repacks a header. -/
theorem SourceInv.update {n : UInt32} {es : List NetEvent} {s : Net} (hs : SourceInv n es s)
    {j : ℕ} {cj : Caller} (cj' : Caller) (hcj : s.client.caller j = some cj)
    (hreq : cj'.req = cj.req) :
    ∀ id ca, Function.update s.client.caller j (some cj') id = some ca → ca.req.cltNonce = n := by
  intro id ca hca
  rcases caller_update hca with ⟨rfl,rfl⟩ | ⟨-,hca⟩
  · rw [hreq]
    exact hs.callers id cj hcj
  · exact hs.callers id ca hca

theorem source_step {n : UInt32} {es : List NetEvent} {s s' : Net} {e : NetEvent}
    (hs : SourceInv n es s) (hreg : Registered s.client) (h : s.step e = some s') :
    SourceInv n (es ++ [e]) s' := by
  have hc := Net.step_cases h
  cases e with
  | start id proc =>
    obtain ⟨k,hk,rfl⟩ := hc
    obtain ⟨-,rfl | ⟨-,rfl⟩⟩ := Rpcc.start_cases hk
    · exact hs.client_step _ rfl hs.callers
    · refine hs.client_step _ rfl (fun j ca hca => ?_)
      rcases caller_update hca with ⟨rfl,rfl⟩ | ⟨-,hca⟩
      · exact hs.nonce
      · exact hs.callers j ca hca
  | transmit id =>
    obtain ⟨ca,hca,-,rfl⟩ := hc
    have hs' := hs.client_step (.transmit id) rfl hs.callers
    refine ⟨hs'.nonce, hs'.callers, fun r hr => ?_, hs'.running, hs'.stored, hs'.replies⟩
    rcases List.mem_cons.mp hr with rfl | hr
    · exact hs.callers id ca hca
    · exact hs.requests r hr
  | deliver r =>
    obtain ⟨hr,srv,out,hd,rfl⟩ := hc
    have hs' := hs.client_step (.deliver r) rfl hs.callers
    obtain ⟨hstored,hout⟩ := hs'.stored.dispatch hd
    refine ⟨hs'.nonce, hs'.callers, hs'.requests, fun r' hr' => ?_, hstored, fun b hb => ?_⟩
    · rcases Server.dispatch_cases hd with ⟨-,rfl,-⟩ | ⟨-,t,v,-,rfl,-⟩
      · exact hs.running r' hr'
      · change r' ∈ (if v = .new then r :: s.server.running else s.server.running) at hr'
        split_ifs at hr'
        · rcases List.mem_cons.mp hr' with rfl | hr'
          · exact hs.requests r' hr
          · exact hs.running r' hr'
        · exact hs.running r' hr'
    · rcases List.mem_append.mp hb with hb | hb
      · rw [← hs.requests r hr]
        refine ⟨r.xid.toUInt32.toNat, ?_⟩
        rcases hout b hb with rfl | rfl | rfl | hb
        · exact made_failure _ _ _ (by change ¬ 0 ≤ oldsrvFailure; decide)
        · exact made_failure _ _ _ (by change ¬ 0 ≤ atmostonceFailure; decide)
        · exact made_nil _ _ _
        · exact hb
      · exact hs'.replies b hb
  | handled r ret body =>
    obtain ⟨srv,b,hr,rfl⟩ := hc
    have hs' := hs.client_step (.handled r ret body) rfl hs.callers
    have hmade := made_reply es hr
    have hstored := hs'.stored.reply (fun _ => hmade) hr
    obtain ⟨hrun,-,-,t,hsrv,-⟩ := Server.reply_cases hr
    refine ⟨hs'.nonce, hs'.callers, hs'.requests, fun r' hr' => ?_, hstored, fun b' hb' => ?_⟩
    · rw [hsrv] at hr'
      exact hs.running r' (List.mem_of_mem_erase hr')
    · rcases List.mem_cons.mp hb' with rfl | hb'
      · rw [← hs.running r hrun]
        exact ⟨_, hmade⟩
      · exact hs'.replies b' hb'
  | gotPdu b =>
    obtain ⟨-,rfl⟩ := hc
    rcases s.client.gotPdu_cases b with ⟨-,heq⟩ | ⟨h,body,-,⟨-,heq⟩ | ⟨j,hj,heq⟩⟩
    · rw [heq]
      exact hs.client_step _ rfl hs.callers
    · rw [heq]
      exact hs.client_step _ rfl hs.callers
    · obtain ⟨cj,hcj,-⟩ := hreg _ j hj
      rw [heq, hcj]
      exact hs.client_step _ rfl (hs.update _ hcj (takeReply_frame cj h body).2.1)
  | finish id =>
    obtain ⟨k,hk,rfl⟩ := hc
    obtain ⟨ca,hca,-,rfl⟩ := Rpcc.finish_cases hk
    exact hs.client_step _ rfl (hs.update { ca with returned := true } hca rfl)
  | bind id =>
    obtain ⟨k,hk,rfl⟩ := hc
    obtain ⟨ca,r,u,hca,-,-,-,-,-,rfl⟩ := Rpcc.bind_cases hk
    exact hs.client_step _ rfl (hs.update { ca with bound := true } hca rfl)

/-! Both together, along a run. -/

structure DeliveryInv (init : Net) (n : UInt32) (es : List NetEvent) (s : Net) : Prop where
  registered : Registered s.client
  delivered : ∀ id, Delivered s.client id (firstReply init es id)
  source : SourceInv n es s
  made : ∀ id h body, firstReply init es id = some (h, body) → 0 ≤ h.ret →
    ∃ r, NetEvent.handled r h.ret body ∈ es ∧ r.cltNonce = n ∧ r.xid = h.xid

/-- Only `got_pdu` brings replies. -/
theorem noteReply_other {id : ℕ} {k : Rpcc} {e : NetEvent}
    {first : Option (ReplyHeader × Bytes)} (he : ∀ b, e ≠ .gotPdu b) :
    noteReply id k e first = first := by
  unfold noteReply
  split
  · exact absurd rfl (he _)
  · rfl

theorem client_delivered {s s' : Net} {e : NetEvent} (hreg : Registered s.client)
    (h : s.step e = some s') : Registered s'.client ∧
    ∀ id first, Delivered s.client id first →
      Delivered s'.client id (noteReply id s.client e first) := by
  have hc := Net.step_cases h
  have hother : (∀ b, e ≠ .gotPdu b) → (Registered s'.client ∧
      ∀ id first, Delivered s.client id first → Delivered s'.client id first) →
      Registered s'.client ∧ ∀ id first, Delivered s.client id first →
        Delivered s'.client id (noteReply id s.client e first) := by
    intro he hd
    refine ⟨hd.1, fun id first hf => ?_⟩
    rw [noteReply_other he]
    exact hd.2 id first hf
  cases e with
  | gotPdu b =>
    obtain ⟨-,rfl⟩ := hc
    exact ⟨hreg.gotPdu b, fun id first hf => gotPdu_delivered hreg hf⟩
  | start id proc =>
    obtain ⟨k,hk,rfl⟩ := hc
    exact hother (fun _ => by simp) (start_delivered hreg hk)
  | finish id =>
    obtain ⟨k,hk,rfl⟩ := hc
    exact hother (fun _ => by simp) (finish_delivered hreg hk)
  | bind id =>
    obtain ⟨k,hk,rfl⟩ := hc
    exact hother (fun _ => by simp) (bind_delivered hreg hk)
  | transmit id =>
    obtain ⟨ca,-,-,rfl⟩ := hc
    exact hother (fun _ => by simp) ⟨hreg, fun _ _ h => h⟩
  | deliver r =>
    obtain ⟨-,srv,out,-,rfl⟩ := hc
    exact hother (fun _ => by simp) ⟨hreg, fun _ _ h => h⟩
  | handled r ret body =>
    obtain ⟨srv,b,-,rfl⟩ := hc
    exact hother (fun _ => by simp) ⟨hreg, fun _ _ h => h⟩

/-- A noted reply was noted before, or has just arrived. -/
theorem noteReply_cases {id : ℕ} {k : Rpcc} {e : NetEvent}
    {first : Option (ReplyHeader × Bytes)} {r : ReplyHeader × Bytes}
    (h : noteReply id k e first = some r) :
    first = some r ∨ ∃ b, e = .gotPdu b ∧ parseReply b = some r := by
  unfold noteReply at h
  split at h
  · obtain ⟨hp,-⟩ := Option.filter_eq_some_iff.mp h
    exact Or.inr ⟨_, rfl, hp⟩
  · exact Or.inl h

theorem delivery_run (cltNonce nonce : UInt32) (procs : Int32 → Bool) {es : List NetEvent} {s : Net}
    (hrun : run Net.step (Net.init cltNonce nonce procs) es = some s) :
    DeliveryInv (Net.init cltNonce nonce procs) cltNonce es s := by
  refine run_history (I := fun es s => DeliveryInv (Net.init cltNonce nonce procs) cltNonce es s)
    ?_ ?_ hrun
  · refine ⟨fun x id h => ?_, fun id => ⟨fun _ => rfl, fun ca h => ?_, fun ca h => ?_⟩,
      ⟨rfl, fun id ca h => ?_, fun r h => ?_, fun r h => ?_, fun n r h => ?_, fun b h => ?_⟩,
      fun id h body hf => ?_⟩
    · cases h
    · cases h
    · cases h
    · cases h
    · cases h
    · cases h
    · cases h
    · cases h
    · cases hf
  · intro fs e r r' hr ih hstep
    obtain ⟨hreg,hdel⟩ := client_delivered ih.registered hstep
    have hnote : ∀ id, firstReply (Net.init cltNonce nonce procs) (fs ++ [e]) id =
        noteReply id r.client e (firstReply (Net.init cltNonce nonce procs) fs id) :=
      fun id => observed_snoc hr hstep
    refine ⟨hreg, fun id => ?_, source_step ih.source ih.registered hstep, ?_⟩
    · rw [hnote]
      exact hdel id _ (ih.delivered id)
    · intro id h body hf hpos
      rw [hnote] at hf
      rcases noteReply_cases hf with hf | ⟨b,rfl,hp⟩
      · obtain ⟨q,hq,hrest⟩ := ih.made id h body hf hpos
        exact ⟨q, List.mem_append_left _ hq, hrest⟩
      · obtain ⟨hb,-⟩ := Net.step_cases hstep
        obtain ⟨x,hmade⟩ := ih.source.replies b hb
        obtain ⟨q,hq,hn,-,hxid⟩ := hmade h body hp hpos
        exact ⟨q, List.mem_append_left _ hq, UInt32.toNat_inj.mp hn, hxid⟩

/-- A call that returns a result without failure returns the first reply with its xid that came
while it was outstanding, and for a client with a nonce a handler for that client and xid made it;
replies that are for other calls, or late, or not the first, change no call. -/
theorem first_reply_reaches_its_caller (cltNonce nonce : UInt32) (procs : Int32 → Bool)
    (es : List NetEvent) (s : Net)
    (hrun : run Net.step (Net.init cltNonce nonce procs) es = some s) :
    (∀ id ca, s.client.caller id = some ca → ca.returned = true → 0 ≤ ca.result →
      ∃ h, firstReply (Net.init cltNonce nonce procs) es id = some (h, ca.un) ∧
        h.xid.toUInt32 = ca.xid ∧ h.ret = ca.result ∧
        (cltNonce ≠ 0 → ∃ r, NetEvent.handled r h.ret ca.un ∈ es ∧ r.cltNonce = cltNonce ∧
          r.xid.toUInt32 = ca.xid)) ∧
    (∀ b s', s.step (.gotPdu b) = some s' → ∀ id ca, s.client.caller id = some ca →
      (ca.done = true ∨ ca.returned = true ∨
        ∀ h body, parseReply b = some (h, body) → h.xid.toUInt32 ≠ ca.xid) →
      s'.client.caller id = some ca) := by
  have hinv := delivery_run cltNonce nonce procs hrun
  refine ⟨fun id ca hca _ hres => ?_, fun b s' hstep id ca hca hnot => ?_⟩
  · have hdone : ca.done = true := by
      by_contra hd
      rw [Caller.result, if_neg hd] at hres
      exact absurd hres (by decide)
    obtain ⟨h,hfirst,hx,hr⟩ := (hinv.delivered id).got ca hca hdone
    have hresult : h.ret = ca.result := by
      rw [Caller.result, if_pos hdone, hr]
    refine ⟨h, hfirst, hx, hresult, fun _ => ?_⟩
    obtain ⟨r,hr',hn,hxid⟩ := hinv.made id h ca.un hfirst (hresult ▸ hres)
    exact ⟨r, hr', hn, by rw [hxid, hx]⟩
  · obtain ⟨-,rfl⟩ := Net.step_cases hstep
    rcases s.client.gotPdu_cases b with ⟨-,heq⟩ | ⟨h,body,hp,⟨-,heq⟩ | ⟨j,hj,heq⟩⟩
    · rw [heq]
      exact hca
    · rw [heq]
      exact hca
    · obtain ⟨cj,hcj,hxj,hrj⟩ := hinv.registered _ j hj
      rw [heq, hcj]
      by_cases hid : id = j
      · -- the call itself: it can only have its reply already
        subst hid
        rw [hca] at hcj
        obtain rfl := Option.some.inj hcj
        have hdone : ca.done = true := by
          rcases hnot with hd | hr | hx
          · exact hd
          · rw [hrj] at hr
            cases hr
          · exact absurd hxj.symm (hx h body hp)
        have htake : ca.takeReply h body = ca := if_pos hdone
        rw [Option.map_some, htake]
        exact Function.update_self _ _ _
      · exact (Function.update_of_ne hid _ _).trans hca

end DisconnectedYfs.RPC
