import DisconnectedYfs.RPCReplyBuffers
import DisconnectedYfs.RPCReplyDelivery

/-! A client and a server that sends its stored replies from their buffers. Replies reach the right
caller as long as no worker sends a buffer that was freed while it waited. One that does may send
the reply to a later call, cut off where its own would end. -/
namespace DisconnectedYfs.RPC
open TraceSystem
attribute [local irreducible] parseReply

/-- An event; if a handler ends in it, `a` is where its reply is. Or the worker `k` sends a stored
reply. -/
inductive Buffered (ε : Type) where
  | act (e : ε) (a : ℕ)
  | send (k : ℕ) (rest : Bytes)
deriving DecidableEq, Repr

/-- The event, if it is one without the buffers. -/
def Buffered.plain {ε : Type} : Buffered ε → List ε
  | .act e _ => [e]
  | .send .. => []

theorem mem_plain {ε : Type} {es : List (Buffered ε)} {e : ε} (h : e ∈ es.flatMap Buffered.plain) :
    ∃ a, Buffered.act e a ∈ es := by
  obtain ⟨e',he',hmem⟩ := List.mem_flatMap.mp h
  cases e' with
  | act e₀ a =>
    obtain rfl := List.mem_singleton.mp hmem
    exact ⟨a, he'⟩
  | send => cases hmem

/-- `Net` with the buffers of the server. -/
structure BufferedNet where
  client : Rpcc
  server : BufferedServer
  requests : List ReqHeader := []
  replies : List Bytes := []

namespace BufferedNet

def init (cltNonce nonce : UInt32) (procs : Int32 → Bool) : BufferedNet :=
  { client := { cltNonce := cltNonce }, server := { nonce := nonce, procs := procs } }

def step (s : BufferedNet) : Buffered NetEvent → Option BufferedNet
  | .act (.start id proc) _ => (s.client.start id proc).map (fun c => { s with client := c })
  | .act (.transmit id) _ => (s.client.caller id).bind (fun ca =>
      if ca.returned then none else some { s with requests := ca.req :: s.requests })
  | .act (.deliver h) _ =>
    if h ∈ s.requests then
      (s.server.dispatch h).map (fun p => { s with server := p.1, replies := p.2 ++ s.replies })
    else none
  | .act (.handled h ret body) a =>
    (s.server.reply h ret body a).map
      (fun p => { s with server := p.1, replies := p.2 ++ s.replies })
  | .act (.gotPdu b) _ =>
    if s.replies.contains b then some { s with client := s.client.gotPdu b } else none
  | .act (.finish id) _ => (s.client.finish id).map (fun c => { s with client := c })
  | .act (.bind id) _ => (s.client.bind id).map (fun c => { s with client := c })
  | .send k rest =>
    (s.server.send k rest).map (fun p => { s with server := p.1, replies := p.2.2 :: s.replies })

/-- No buffer is sent that was freed. -/
def keeps (s : BufferedNet) : Buffered NetEvent → Bool
  | .act .. => true
  | .send k _ => s.server.holds k

/-- `t` is the same without the buffers. Its server has answered wherever a worker is still to
send. -/
structure Refines (s : BufferedNet) (t : Net) : Prop where
  client : t.client = s.client
  requests : t.requests = s.requests
  replies : ∀ b ∈ s.replies, b ∈ t.replies
  server : s.server.Refines t.server (fun _ b => b ∈ t.replies)

/-- The first reply PDU with the xid of call `id` that arrives while it is outstanding. -/
def firstReply (s : BufferedNet) (es : List (Buffered NetEvent)) (id : ℕ) :
    Option (ReplyHeader × Bytes) :=
  observed step (fun s e _ first => match e with
    | .act e _ => noteReply id s.client e first
    | .send .. => first) s none es

variable {s s' : BufferedNet} {t : Net} {e : Buffered NetEvent}

/-- A step of the client alone. -/
theorem Refines.setClient (h : s.Refines t) (k : Rpcc) :
    Refines { s with client := k } { t with client := k } :=
  ⟨rfl, h.requests, h.replies, h.server⟩

/-- What the server does, with what it has sent. -/
theorem Refines.setServer {srv : BufferedServer} {srv' : Server} {out out' : List Bytes}
    (h : s.Refines t) (hout : ∀ b ∈ out, b ∈ out')
    (hsrv : srv.Refines srv' (fun _ b => b ∈ out' ++ t.replies)) :
    Refines { s with server := srv, replies := out ++ s.replies }
      { t with server := srv', replies := out' ++ t.replies } := by
  refine ⟨h.client, h.requests, fun b hb => ?_, hsrv⟩
  exact (List.mem_append.mp hb).elim (fun hb => List.mem_append_left _ (hout b hb))
    (fun hb => List.mem_append_right _ (h.replies b hb))

/-- The buffered server does what the other one does. -/
theorem Refines.step (h : s.Refines t) (hk : s.keeps e = true) (hs : s.step e = some s') :
    ∃ t', run Net.step t e.plain = some t' ∧ s'.Refines t' := by
  have hone : ∀ {f : NetEvent} {t' : Net}, t.step f = some t' → run Net.step t [f] = some t' :=
    fun hf => by rw [run_cons, hf]; rfl
  cases e with
  | send k rest =>
    obtain ⟨⟨srv,c,b⟩,hsend,rfl⟩ := Option.map_eq_some_iff.mp hs
    obtain ⟨hb,hsrv⟩ := h.server.send hk hsend
    refine ⟨t, rfl, h.client, h.requests, fun b' hb' => ?_, hsrv⟩
    obtain rfl | hb' := List.mem_cons.mp hb'
    · exact hb
    · exact h.replies b' hb'
  | act f a =>
    cases f with
    | start id proc =>
      obtain ⟨k,hk,rfl⟩ := Option.map_eq_some_iff.mp hs
      refine ⟨_, hone (f := .start id proc) ?_, h.setClient k⟩
      rw [Net.step, h.client, hk]
      rfl
    | transmit id =>
      obtain ⟨ca,hca,hs⟩ := Option.bind_eq_some_iff.mp hs
      split_ifs at hs with hret
      cases hs
      refine ⟨{ t with requests := ca.req :: t.requests }, hone (f := .transmit id) ?_,
        h.client, ?_, h.replies, h.server⟩
      · simp [Net.step, h.client, hca, hret]
      · exact congrArg (ca.req :: ·) h.requests
    | deliver r =>
      simp only [BufferedNet.step] at hs
      split_ifs at hs with hr
      obtain ⟨⟨srv,out⟩,hd,rfl⟩ := Option.map_eq_some_iff.mp hs
      obtain ⟨srv',out',hd',hout,hsrv⟩ := h.server.dispatch hd
      refine ⟨_, hone (f := .deliver r) ?_, h.setServer hout (hsrv.mono (fun c b hb => ?_))⟩
      · rw [Net.step, h.requests, if_pos hr, hd']
        rfl
      · exact hb.elim (List.mem_append_right _) (fun hb => List.mem_append_left _ hb.2)
    | handled r ret body =>
      obtain ⟨⟨srv,out⟩,hd,rfl⟩ := Option.map_eq_some_iff.mp hs
      obtain ⟨srv',b,hd',hout,hsrv⟩ := h.server.reply hd
      have hin : ∀ b' ∈ out, b' ∈ [b] := fun b' hb' => List.mem_singleton.mpr (hout b' hb')
      refine ⟨_, hone (f := .handled r ret body) ?_,
        h.setServer hin (hsrv.mono (fun c b' hb' => ?_))⟩
      · rw [Net.step, hd']
        rfl
      · exact hb'.elim (List.mem_append_right _)
          (fun hb' => List.mem_append_left _ (List.mem_singleton.mpr hb'.2))
    | gotPdu b =>
      simp only [BufferedNet.step, List.contains_iff_mem] at hs
      split_ifs at hs with hb
      cases hs
      refine ⟨_, hone (f := .gotPdu b) ?_, h.setClient _⟩
      rw [Net.step, if_pos (h.replies b hb), h.client]
    | finish id =>
      obtain ⟨k,hk,rfl⟩ := Option.map_eq_some_iff.mp hs
      refine ⟨_, hone (f := .finish id) ?_, h.setClient k⟩
      rw [Net.step, h.client, hk]
      rfl
    | bind id =>
      obtain ⟨k,hk,rfl⟩ := Option.map_eq_some_iff.mp hs
      refine ⟨_, hone (f := .bind id) ?_, h.setClient k⟩
      rw [Net.step, h.client, hk]
      rfl

theorem refines_init (cltNonce nonce : UInt32) (procs : Int32 → Bool) :
    (init cltNonce nonce procs).Refines (Net.init cltNonce nonce procs) := by
  refine ⟨rfl, rfl, fun b hb => ?_, BufferedServer.refines_init nonce procs⟩
  cases hb

/-- In every run in which no freed buffer is sent, the client sees what it sees in `Net`. -/
theorem refines_run {cltNonce nonce : UInt32} {procs : Int32 → Bool} {es : List (Buffered NetEvent)}
    (hkeep : Meets step (fun s e => s.keeps e = true) (init cltNonce nonce procs) es)
    (hrun : run step (init cltNonce nonce procs) es = some s) :
    ∃ t, run Net.step (Net.init cltNonce nonce procs) (es.flatMap Buffered.plain) = some t ∧
      s.Refines t ∧ ∀ id, firstReply (init cltNonce nonce procs) es id =
        RPC.firstReply (Net.init cltNonce nonce procs) (es.flatMap Buffered.plain) id := by
  refine Meets.simulation (f := Buffered.plain) (R := fun es s t => s.Refines t ∧
    ∀ id, firstReply (init cltNonce nonce procs) es id =
      RPC.firstReply (Net.init cltNonce nonce procs) (es.flatMap Buffered.plain) id)
    ⟨refines_init cltNonce nonce procs, fun id => rfl⟩ ?_ hkeep hrun
  rintro fs e r r' v hr hv ⟨href,hfirst⟩ hce hstep
  obtain ⟨v',hv',href'⟩ := href.step hce hstep
  refine ⟨v', hv', href', fun id => ?_⟩
  unfold firstReply RPC.firstReply at hfirst ⊢
  rw [observed_snoc hr hstep, hfirst, List.flatMap_append]
  cases e with
  | send => simp [Buffered.plain]
  | act f a =>
    obtain ⟨v'',hv'',-⟩ := Option.bind_eq_some_iff.mp hv'
    rw [List.flatMap_singleton, Buffered.plain, observed_snoc hv hv'', href.client]

end BufferedNet

/-- A call that returns a result without failure returns the first reply with its xid that came
while it was outstanding, and for a client with a nonce a handler for that client and xid made it;
replies that are for other calls, or late, or not the first, change no call. -/
theorem reply_reaches_its_caller (cltNonce nonce : UInt32) (procs : Int32 → Bool)
    (es : List (Buffered NetEvent)) (s : BufferedNet)
    (hkeep : Meets BufferedNet.step (fun s e => s.keeps e = true)
      (BufferedNet.init cltNonce nonce procs) es)
    (hrun : run BufferedNet.step (BufferedNet.init cltNonce nonce procs) es = some s) :
    (∀ id ca, s.client.caller id = some ca → ca.returned = true → 0 ≤ ca.result →
      ∃ h, BufferedNet.firstReply (BufferedNet.init cltNonce nonce procs) es id =
          some (h, ca.un) ∧ h.xid.toUInt32 = ca.xid ∧ h.ret = ca.result ∧
        (cltNonce ≠ 0 → ∃ r a, Buffered.act (.handled r h.ret ca.un) a ∈ es ∧
          r.cltNonce = cltNonce ∧ r.xid.toUInt32 = ca.xid)) ∧
    (∀ b a s', s.step (.act (.gotPdu b) a) = some s' → ∀ id ca, s.client.caller id = some ca →
      (ca.done = true ∨ ca.returned = true ∨
        ∀ h body, parseReply b = some (h, body) → h.xid.toUInt32 ≠ ca.xid) →
      s'.client.caller id = some ca) := by
  obtain ⟨t,ht,href,hfirst⟩ := BufferedNet.refines_run hkeep hrun
  obtain ⟨hres,hother⟩ := first_reply_reaches_its_caller cltNonce nonce procs _ t ht
  refine ⟨fun id ca hca hret hpos => ?_, fun b a s' hstep id ca hca hnot => ?_⟩
  · obtain ⟨h,hf,hx,hr,hmade⟩ := hres id ca (href.client ▸ hca) hret hpos
    refine ⟨h, (hfirst id).trans hf, hx, hr, fun hn => ?_⟩
    obtain ⟨r,hr',hrest⟩ := hmade hn
    obtain ⟨a,ha⟩ := mem_plain hr'
    exact ⟨r, a, ha, hrest⟩
  · obtain ⟨t',ht',href'⟩ := href.step (e := .act (.gotPdu b) a) rfl hstep
    rw [← href'.client]
    refine hother b t' ?_ id ca (href.client ▸ hca) hnot
    obtain ⟨t'',ht'',heq⟩ := Option.bind_eq_some_iff.mp ht'
    cases heq
    exact ht''

/-- The client binds. A copy of the request is answered first, while the worker that has stored the
reply waits at its `send`. -/
def bindsTwice : List (Buffered NetEvent) :=
  let h : ReqHeader := { xid := 1, proc := 1, cltNonce := 5, srvNonce := 0, xidRep := 0 }
  [.act (.start 0 1) 0, .act (.transmit 0) 0, .act (.deliver h) 0, .act (.handled h 0 (be32 9)) 0,
    .act (.deliver h) 0, .send 0 [], .act (.gotPdu (replyBuf ⟨1, 0⟩ (be32 9))) 0,
    .act (.finish 0) 0, .act (.bind 0) 0]

/-- The headers of the next two calls. -/
def second : ReqHeader := { xid := 2, proc := 7, cltNonce := 5, srvNonce := 9, xidRep := 1 }

def third : ReqHeader := { second with xid := 3 }

/-- Both calls are made. The reply to the later one comes first; the other request arrives twice, is
answered twice, and the second answer comes when the call has returned. -/
def bothAnswered : List (Buffered NetEvent) :=
  [.act (.start 1 7) 0, .act (.start 2 7) 0, .act (.transmit 1) 0, .act (.transmit 2) 0,
    .act (.deliver third) 0, .act (.deliver second) 0, .act (.handled second 0 [65]) 1,
    .act (.handled third 3 [66, 67]) 2, .send 0 [], .act (.gotPdu (replyBuf ⟨3, 3⟩ [66, 67])) 0,
    .act (.deliver second) 0, .send 0 [], .act (.gotPdu (replyBuf ⟨2, 0⟩ [65])) 0,
    .act (.finish 1) 0, .send 0 [], .act (.gotPdu (replyBuf ⟨2, 0⟩ [65])) 0, .act (.finish 2) 0]

theorem reply_reaches_its_caller_both :
    let init := BufferedNet.init 5 9 (fun _ => true)
    let es := bindsTwice ++ .send 0 [] :: bothAnswered
    ∃ s c₁ c₂, run BufferedNet.step init es = some s ∧ s.client.caller 1 = some c₁ ∧
      s.client.caller 2 = some c₂ ∧ c₁.un = [65] ∧ c₂.un = [66, 67] ∧
      (∃ h, BufferedNet.firstReply init es 1 = some (h, c₁.un) ∧ h.xid.toUInt32 = c₁.xid ∧
        ∃ r a, Buffered.act (.handled r h.ret c₁.un) a ∈ es ∧ r.xid.toUInt32 = c₁.xid) ∧
      (∃ h, BufferedNet.firstReply init es 2 = some (h, c₂.un) ∧ h.xid.toUInt32 = c₂.xid ∧
        ∃ r a, Buffered.act (.handled r h.ret c₂.un) a ∈ es ∧ r.xid.toUInt32 = c₂.xid) ∧
      ∀ b a s', s.step (.act (.gotPdu b) a) = some s' → s'.client.caller 1 = some c₁ := by
  intro init es
  obtain ⟨s,hrun,⟨c₁,hc₁,hret₁,hres₁,hun₁⟩,c₂,hc₂,hret₂,hres₂,hun₂⟩ :=
    reaches_of_any BufferedNet.step (fun s =>
      (∃ ca ∈ s.client.caller 1, ca.returned = true ∧ 0 ≤ ca.result ∧ ca.un = [65]) ∧
      ∃ ca ∈ s.client.caller 2, ca.returned = true ∧ 0 ≤ ca.result ∧ ca.un = [66, 67])
    init es (by decide +kernel)
  obtain ⟨hres,hother⟩ := reply_reaches_its_caller 5 9 (fun _ => true) es s (by decide +kernel) hrun
  obtain ⟨h₁,hf₁,hx₁,-,hmade₁⟩ := hres 1 c₁ hc₁ hret₁ hres₁
  obtain ⟨h₂,hf₂,hx₂,-,hmade₂⟩ := hres 2 c₂ hc₂ hret₂ hres₂
  obtain ⟨r₁,a₁,hr₁,-,hrx₁⟩ := hmade₁ (by decide)
  obtain ⟨r₂,a₂,hr₂,-,hrx₂⟩ := hmade₂ (by decide)
  exact ⟨s, c₁, c₂, hrun, hc₁, hc₂, hun₁, hun₂, ⟨h₁, hf₁, hx₁, r₁, a₁, hr₁, hrx₁⟩,
    ⟨h₂, hf₂, hx₂, r₂, a₂, hr₂, hrx₂⟩,
    fun b a s' hstep => hother b a s' hstep 1 c₁ hc₁ (Or.inr (Or.inl hret₁))⟩

/-- The second call acknowledges the bind call, and the buffer of its reply gets the reply to the
third. The worker that still waits with the bind call sends that, as far as its own reply went. -/
def staleSend : List (Buffered NetEvent) :=
  [.act (.start 1 7) 0, .act (.transmit 1) 0, .act (.deliver second) 0, .act (.start 2 7) 0,
    .act (.transmit 2) 0, .act (.deliver third) 0, .act (.handled third 0 [0, 0, 0, 2, 72, 105]) 0,
    .send 1 [], .act (.gotPdu (replyBuf ⟨3, 0⟩ [0, 0, 0, 2])) 0, .act (.finish 2) 0]

/-- The third call returns a body that no handler has passed to `add_reply`. -/
theorem stale_reply_reaches_a_caller :
    ∃ s ca, run BufferedNet.step (BufferedNet.init 5 9 (fun _ => true)) (bindsTwice ++ staleSend) =
        some s ∧ s.client.caller 2 = some ca ∧ ca.returned = true ∧ ca.result = 0 ∧
      ca.un = [0, 0, 0, 2] ∧
      ∀ r ret a, Buffered.act (.handled r ret ca.un) a ∉ bindsTwice ++ staleSend := by
  obtain ⟨s,hrun,ca,hca,hret,hres,hun⟩ := reaches_of_any BufferedNet.step (fun s =>
      ∃ ca ∈ s.client.caller 2, ca.returned = true ∧ ca.result = 0 ∧ ca.un = [0, 0, 0, 2])
    (BufferedNet.init 5 9 (fun _ => true)) (bindsTwice ++ staleSend) (by decide +kernel)
  refine ⟨s, ca, hrun, hca, hret, hres, hun, fun r ret a hmem => ?_⟩
  rw [hun] at hmem
  simp [bindsTwice, staleSend, be32] at hmem

end DisconnectedYfs.RPC
