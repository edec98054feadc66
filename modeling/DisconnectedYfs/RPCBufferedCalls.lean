import DisconnectedYfs.RPCRemoteCalls
import DisconnectedYfs.RPCStaleSends

/-! Remote calls to a server that sends its stored replies from their buffers. They are local calls
as long as no buffer is sent that was freed. -/
namespace DisconnectedYfs.RPC
open TraceSystem
attribute [local irreducible] parseReply parseReq marshalled

namespace BufferedServer

/-- `dispatch` calls the handler. -/
def runs (s : BufferedServer) (h : ReqHeader) : Bool :=
  !decide (s.plain.refuses h) && (s.check h).any (fun p => p.2 == .new)

end BufferedServer

/-- `Remote` with the buffers of the server. -/
structure BufferedRemote (σ : Type) where
  clients : UInt32 → Rpcc
  server : BufferedServer
  obj : σ
  args : UInt32 → ℕ → List Value := fun _ _ => []
  bodies : UInt32 → ℕ → Bytes := fun _ _ => []
  packets : List Bytes := []
  replies : List (UInt32 × Bytes) := []
  jobs : List (ReqHeader × Bytes) := []
  outs : List (ReqHeader × Int32 × Bytes) := []

namespace BufferedRemote

variable {σ ω : Type}

def init (methods : Int32 → Option (Method σ ω)) (nonce : UInt32) (obj : σ) : BufferedRemote σ :=
  { clients := fun c => { cltNonce := c }, obj := obj,
    server := { nonce := nonce, procs := fun proc => (methods proc).isSome } }

/-- The same with another server, which has sent other replies. -/
def serving (s : BufferedRemote σ) (srv : Server) (replies : List (UInt32 × Bytes)) : Remote σ :=
  { clients := s.clients, server := srv, obj := s.obj, args := s.args, bodies := s.bodies,
    packets := s.packets, replies := replies, jobs := s.jobs, outs := s.outs }

/-- What does not depend on the stored replies. -/
def plain (s : BufferedRemote σ) : Remote σ := s.serving s.server.plain s.replies

def setClient (c : UInt32) (k : Rpcc) (s : BufferedRemote σ) : BufferedRemote σ :=
  { s with clients := Function.update s.clients c k }

/-- The arguments of a call of a client, and what they were marshalled into. -/
def given (c : UInt32) (id : ℕ) (args : List Value) (body : Bytes) (s : BufferedRemote σ) :
    BufferedRemote σ :=
  { s with
    args := Function.update s.args c (Function.update (s.args c) id args),
    bodies := Function.update s.bodies c (Function.update (s.bodies c) id body) }

def step (methods : Int32 → Option (Method σ ω)) (s : BufferedRemote σ) :
    Buffered (RemoteEvent ω) → Option (BufferedRemote σ)
  | .act (.start c id proc args) _ =>
    (marshalled args).bind (fun body => ((s.clients c).start id proc).map (fun k =>
      (s.given c id args body).setClient c k))
  | .act (.transmit c id) _ =>
    ((s.clients c).caller id).bind (fun ca =>
      if ca.returned then none
      else some { s with packets := reqBuf ca.req (s.bodies c id) :: s.packets })
  | .act (.deliver b) _ =>
    if s.packets.contains b then
      match parseReq b with
      | none => some s
      | some (h, _) => (s.server.dispatch h).map (fun p =>
        { s with
          server := p.1, replies := p.2.map (fun r => (h.cltNonce, r)) ++ s.replies,
          jobs := if s.server.runs h then (h, b) :: s.jobs else s.jobs })
    else none
  | .act (.method h b w) _ =>
    if s.jobs.contains (h, b) then
      (s.plain.serves methods h b).bind (fun q => (q.1.answer w s.obj q.2).map (fun a =>
        { s with
          obj := a.2.2, jobs := s.jobs.erase (h, b), outs := (h, a.1, a.2.1) :: s.outs }))
    else none
  | .act (.handled h ret body) a =>
    if s.outs.contains (h, ret, body) then
      (s.server.reply h ret body a).map (fun p =>
        { s with
          server := p.1, replies := p.2.map (fun r => (h.cltNonce, r)) ++ s.replies,
          outs := s.outs.erase (h, ret, body) })
    else none
  | .act (.gotPdu c b) _ =>
    if s.replies.contains (c, b) then some (s.setClient c ((s.clients c).gotPdu b)) else none
  | .act (.finish c id) _ => ((s.clients c).finish id).map (fun k => s.setClient c k)
  | .act (.bind c id) _ => ((s.clients c).bind id).map (fun k => s.setClient c k)
  | .send k rest =>
    (s.server.send k rest).map (fun p => { s with server := p.1, replies := p.2 :: s.replies })

/-- No buffer is sent that was freed. -/
def keeps (s : BufferedRemote σ) : Buffered (RemoteEvent ω) → Bool
  | .act .. => true
  | .send k _ => s.server.holds k

/-- The methods that have run, in their order. -/
def executions (methods : Int32 → Option (Method σ ω)) (s : BufferedRemote σ)
    (es : List (Buffered (RemoteEvent ω))) : List (Execution ω) :=
  observed (step methods) (fun s e s' log => match e with
    | .act e _ => s.plain.noteMethod methods e s'.plain log
    | .send .. => log) s [] es

/-- The server `srv`, which has sent `replies`, does what the buffered one does, and has answered
wherever a worker is still to send. -/
structure Refines (s : BufferedRemote σ) (srv : Server)
    (replies : List (UInt32 × Bytes)) : Prop where
  sent : ∀ p ∈ s.replies, p ∈ replies
  server : s.server.Refines srv (fun c b => (c, b) ∈ replies)

variable {methods : Int32 → Option (Method σ ω)} {s s' : BufferedRemote σ} {srv : Server}
  {replies : List (UInt32 × Bytes)} {e : Buffered (RemoteEvent ω)}

theorem Refines.serves (h : s.Refines srv replies) (r : ReqHeader) (b : Bytes) :
    (s.serving srv replies).serves methods r b = s.plain.serves methods r b := by
  unfold Remote.serves
  change (handler srv.nonce _ _).bind _ = (handler s.server.nonce _ _).bind _
  rw [h.server.nonce]

theorem Refines.runs (h : s.Refines srv replies) {r : ReqHeader} {out : List Bytes}
    {s₁ : BufferedServer} (hd : s.server.dispatch r = some (s₁, out)) :
    srv.runs r = s.server.runs r := by
  have hrefuses : srv.refuses r ↔ s.server.plain.refuses r := by
    unfold Server.refuses
    rw [h.server.nonce]
    rfl
  unfold Server.runs BufferedServer.runs
  by_cases href : s.server.plain.refuses r
  · simp [href, hrefuses.mpr href]
  · unfold BufferedServer.dispatch at hd
    rw [if_neg href] at hd
    split_ifs at hd
    obtain ⟨⟨tab,v⟩,hv,-⟩ := Option.map_eq_some_iff.mp hd
    rw [h.server.check hv, hv, Option.any_some, Option.any_some]
    have hnew : (v.map s.server.value == RpcState.new) = (v == RpcState.new) := by
      rw [Bool.eq_iff_iff, beq_iff_eq, beq_iff_eq, map_eq_new]
    simp only [hrefuses, hnew]

/-- A request arrives. -/
theorem Refines.deliver {b : Bytes} {a : ℕ} (h : s.Refines srv replies)
    (hs : s.step methods (.act (.deliver b) a) = some s') : ∃ srv' replies',
      (s.serving srv replies).step methods (.deliver b) = some (s'.serving srv' replies') ∧
      s'.Refines srv' replies' := by
  simp only [BufferedRemote.step] at hs
  split_ifs at hs with hb
  have hb' : (s.serving srv replies).packets.contains b = true := hb
  split at hs
  · rename_i hp
    cases hs
    refine ⟨srv, replies, ?_, h⟩
    simp only [Remote.step]
    rw [if_pos hb', hp]
  · rename_i r u hp
    obtain ⟨⟨srv₁,out⟩,hd,rfl⟩ := Option.map_eq_some_iff.mp hs
    obtain ⟨srv',out',hd',hout,hsrv⟩ := h.server.dispatch hd
    refine ⟨srv', out'.map (fun x => (r.cltNonce, x)) ++ replies, ?_, fun p hp => ?_,
      hsrv.mono (fun c x hx => ?_)⟩
    · simp only [Remote.step]
      rw [if_pos hb', hp]
      change (srv.dispatch r).map _ = _
      simp only [hd', Option.map_some]
      change some { s.serving srv' _ with
        jobs := if srv.runs r then (r, b) :: s.jobs else s.jobs } = _
      rw [h.runs hd]
      rfl
    · obtain hp | hp := List.mem_append.mp hp
      · obtain ⟨x,hx,rfl⟩ := List.mem_map.mp hp
        exact List.mem_append_left _ (List.mem_map_of_mem (hout x hx))
      · exact List.mem_append_right _ (h.sent p hp)
    · obtain hx | ⟨rfl,hx⟩ := hx
      · exact List.mem_append_right _ hx
      · exact List.mem_append_left _ (List.mem_map_of_mem hx)

/-- A handler ends. -/
theorem Refines.handled {r : ReqHeader} {ret : Int32} {body : Bytes} {a : ℕ}
    (h : s.Refines srv replies) (hs : s.step methods (.act (.handled r ret body) a) = some s') :
    ∃ srv' replies',
      (s.serving srv replies).step methods (.handled r ret body) =
        some (s'.serving srv' replies') ∧
      s'.Refines srv' replies' := by
  simp only [BufferedRemote.step, List.contains_iff_mem] at hs
  split_ifs at hs with ho
  obtain ⟨⟨srv₁,out⟩,hd,rfl⟩ := Option.map_eq_some_iff.mp hs
  obtain ⟨srv',b,hd',hout,hsrv⟩ := h.server.reply hd
  refine ⟨srv', (r.cltNonce, b) :: replies, ?_, fun p hp => ?_, hsrv.mono (fun c x hx => ?_)⟩
  · have ho' : (r, ret, body) ∈ (s.serving srv replies).outs := ho
    rw [Remote.step, if_pos ho']
    change (srv.reply r ret body).map _ = _
    rw [hd']
    rfl
  · obtain hp | hp := List.mem_append.mp hp
    · obtain ⟨x,hx,rfl⟩ := List.mem_map.mp hp
      rw [hout x hx]
      exact List.mem_cons_self
    · exact List.mem_cons_of_mem _ (h.sent p hp)
  · obtain hx | ⟨rfl,rfl⟩ := hx
    · exact List.mem_cons_of_mem _ hx
    · exact List.mem_cons_self

/-- The buffered server does what the other one does. -/
theorem Refines.step (h : s.Refines srv replies) (hk : s.keeps e = true)
    (hs : s.step methods e = some s') : ∃ srv' replies',
      run (Remote.step methods) (s.serving srv replies) e.plain =
        some (s'.serving srv' replies') ∧ s'.Refines srv' replies' := by
  have hone : ∀ {f : RemoteEvent ω} {t' : Remote σ}, (s.serving srv replies).step methods f =
      some t' → run (Remote.step methods) (s.serving srv replies) [f] = some t' :=
    fun hf => by rw [run_cons, hf]; rfl
  cases e with
  | send k rest =>
    obtain ⟨⟨srv',c,b⟩,hsend,rfl⟩ := Option.map_eq_some_iff.mp hs
    obtain ⟨hb,hsrv⟩ := h.server.send hk hsend
    refine ⟨srv, replies, rfl, fun p hp => ?_, hsrv⟩
    obtain rfl | hp := List.mem_cons.mp hp
    · exact hb
    · exact h.sent p hp
  | act f a =>
    cases f with
    | start c id proc args =>
      obtain ⟨body,hm,hs⟩ := Option.bind_eq_some_iff.mp hs
      obtain ⟨k,hk,rfl⟩ := Option.map_eq_some_iff.mp hs
      refine ⟨srv, replies, hone (f := .start c id proc args) ?_, h.sent, h.server⟩
      simp [Remote.step, serving, hm, hk, Remote.given, Remote.setClient, given, setClient]
    | transmit c id =>
      obtain ⟨ca,hca,hs⟩ := Option.bind_eq_some_iff.mp hs
      split_ifs at hs with hret
      cases hs
      refine ⟨srv, replies, hone (f := .transmit c id) ?_, h.sent, h.server⟩
      simp [Remote.step, serving, hca, hret]
    | deliver b =>
      obtain ⟨srv',replies',hd,hr⟩ := h.deliver hs
      exact ⟨srv', replies', hone hd, hr⟩
    | method r b w =>
      simp only [BufferedRemote.step, List.contains_iff_mem] at hs
      split_ifs at hs with hj
      obtain ⟨q,hq,hs⟩ := Option.bind_eq_some_iff.mp hs
      obtain ⟨x,hx,rfl⟩ := Option.map_eq_some_iff.mp hs
      refine ⟨srv, replies, hone (f := .method r b w) ?_, h.sent, h.server⟩
      have hj' : (r, b) ∈ (s.serving srv replies).jobs := hj
      rw [Remote.step, if_pos hj', h.serves, hq, Option.bind_some]
      change (q.1.answer w s.obj q.2).map _ = _
      rw [hx]
      rfl
    | handled r ret body =>
      obtain ⟨srv',replies',hd,hr⟩ := h.handled hs
      exact ⟨srv', replies', hone hd, hr⟩
    | gotPdu c b =>
      simp only [BufferedRemote.step, List.contains_iff_mem] at hs
      split_ifs at hs with hb
      cases hs
      refine ⟨srv, replies, hone (f := .gotPdu c b) ?_, h.sent, h.server⟩
      have hb' : (c, b) ∈ (s.serving srv replies).replies := h.sent _ hb
      rw [Remote.step, if_pos hb']
      rfl
    | finish c id =>
      obtain ⟨k,hk,rfl⟩ := Option.map_eq_some_iff.mp hs
      refine ⟨srv, replies, hone (f := .finish c id) ?_, h.sent, h.server⟩
      simp [Remote.step, serving, hk, Remote.setClient, setClient]
    | bind c id =>
      obtain ⟨k,hk,rfl⟩ := Option.map_eq_some_iff.mp hs
      refine ⟨srv, replies, hone (f := .bind c id) ?_, h.sent, h.server⟩
      simp [Remote.step, serving, hk, Remote.setClient, setClient]

theorem refines_init (N : UInt32) (obj : σ) :
    (init methods N obj).Refines (Remote.init methods N obj).server [] :=
  ⟨fun p hp => (by cases hp), BufferedServer.refines_init _ _⟩

/-- What runs now does not depend on the stored replies. -/
theorem Refines.noteMethod (h : s.Refines srv replies) (f : RemoteEvent ω) (t t' : Remote σ)
    (log : List (Execution ω)) : (s.serving srv replies).noteMethod methods f t log =
      s.plain.noteMethod methods f t' log := by
  cases f with
  | method r b w =>
    simp only [Remote.noteMethod, Remote.execution, h.serves]
    rfl
  | _ => rfl

/-- In every run in which no freed buffer is sent. -/
theorem refines_run {N : UInt32} {obj : σ} {es : List (Buffered (RemoteEvent ω))}
    (hkeep : Meets (step methods) (fun s e => s.keeps e = true) (init methods N obj) es)
    (hrun : run (step methods) (init methods N obj) es = some s) : ∃ srv replies,
      run (Remote.step methods) (Remote.init methods N obj) (es.flatMap Buffered.plain) =
        some (s.serving srv replies) ∧
      (init methods N obj).executions methods es =
        (Remote.init methods N obj).executions methods (es.flatMap Buffered.plain) := by
  have hsim : ∃ t, run (Remote.step methods) (Remote.init methods N obj)
      (es.flatMap Buffered.plain) = some t ∧
      (∃ srv replies, t = s.serving srv replies ∧ s.Refines srv replies) ∧
      (init methods N obj).executions methods es =
        (Remote.init methods N obj).executions methods (es.flatMap Buffered.plain) := by
    refine Meets.simulation (f := Buffered.plain) (u := Remote.init methods N obj)
      (R := fun es s t =>
      (∃ srv replies, t = s.serving srv replies ∧ s.Refines srv replies) ∧
      (init methods N obj).executions methods es =
        (Remote.init methods N obj).executions methods (es.flatMap Buffered.plain))
      ⟨⟨_, _, rfl, refines_init N obj⟩, rfl⟩ ?_ hkeep hrun
    rintro fs e r r' v hr hv ⟨⟨srv,replies,rfl,href⟩,hlog⟩ hce hstep
    obtain ⟨srv',replies',hv',href'⟩ := href.step hce hstep
    refine ⟨_, hv', ⟨srv', replies', rfl, href'⟩, ?_⟩
    unfold executions Remote.executions at hlog ⊢
    rw [observed_snoc hr hstep, hlog, List.flatMap_append]
    cases e with
    | send => simp [Buffered.plain]
    | act f a =>
      obtain ⟨v'',hv'',-⟩ := Option.bind_eq_some_iff.mp hv'
      rw [List.flatMap_singleton, Buffered.plain, observed_snoc hv hv'',
        href.noteMethod f v'' r'.plain]
  obtain ⟨t,ht,⟨srv,replies,rfl,-⟩,hlog⟩ := hsim
  exact ⟨srv, replies, ht, hlog⟩

end BufferedRemote

/-- Over a network that loses, repeats and reorders messages, the calls of any number of clients to
a server behave as calls to the object itself, if the types agree, no client's xids wrap and no
buffer is sent that was freed. -/
theorem calls_are_local {σ ω : Type} {methods : Int32 → Option (Method σ ω)} {N : UInt32} {obj : σ}
    {s : BufferedRemote σ} {es : List (Buffered (RemoteEvent ω))}
    (hkeep : Meets (BufferedRemote.step methods) (fun s e => s.keeps e = true)
      (BufferedRemote.init methods N obj) es)
    (hrun : run (BufferedRemote.step methods) (BufferedRemote.init methods N obj) es = some s)
    (hcalls : ∀ c, callsMade ((es.flatMap Buffered.plain).flatMap (RemoteEvent.view c)) < 2^32-1)
    (htyped : ∀ e ∈ es.flatMap Buffered.plain, e.Typed (handler N methods)) :
    LocalCalls methods N obj s.plain
      ((BufferedRemote.init methods N obj).executions methods es) := by
  obtain ⟨srv,replies,ht,hlog⟩ := BufferedRemote.refines_run hkeep hrun
  obtain ⟨hreplays,hcalled,honce,hreturns⟩ := plain_calls_are_local ht hcalls htyped
  rw [hlog]
  exact ⟨hreplays, hcalled, honce, hreturns⟩

def addTo (st x : Int32) : Option ((Int32 × Int32) × Int32) := some ((0, st+x), st+x)

/-- A counter with one method, which adds its argument and returns the sum. -/
def adding : Int32 → Option (Method Int32 Unit) := fun proc =>
  if proc = 7 then
    some { args := [.int], res := .int, meth := fun vs _ st =>
      match vs with
      | [⟨.int, x⟩] => addTo st x
      | _ => none }
  else none

/-- Client `c` binds. The reply is at `a`. -/
def bindsTo (c : UInt32) (a : ℕ) : List (Buffered (RemoteEvent Unit)) :=
  let h : ReqHeader := { xid := 1, proc := bindProc, cltNonce := c, srvNonce := 0, xidRep := 0 }
  [.act (.start c 0 bindProc [⟨.int, (0 : Int32)⟩]) 0, .act (.transmit c 0) 0,
    .act (.deliver (reqBuf h (be32 0))) 0, .act (.method h (reqBuf h (be32 0)) ()) 0,
    .act (.handled h 0 (be32 9)) a, .send 0 [], .act (.gotPdu c (replyBuf ⟨1, 0⟩ (be32 9))) 0,
    .act (.finish c 0) 0, .act (.bind c 0) 0]

/-- Client `c` adds `x` and gets `y`; the request is sent twice, both copies arrive, and the reply
comes back twice as well. It takes the place of the reply to the bind call. -/
def addsTo (c x y : UInt32) (a : ℕ) : List (Buffered (RemoteEvent Unit)) :=
  let h : ReqHeader := { xid := 2, proc := 7, cltNonce := c, srvNonce := 9, xidRep := 1 }
  [.act (.start c 1 7 [⟨.int, x.toInt32⟩]) 0, .act (.transmit c 1) 0, .act (.transmit c 1) 0,
    .act (.deliver (reqBuf h (be32 x))) 0, .act (.method h (reqBuf h (be32 x)) ()) 0,
    .act (.handled h 0 (be32 y)) a, .act (.deliver (reqBuf h (be32 x))) 0, .send 1 [], .send 0 [],
    .act (.gotPdu c (replyBuf ⟨2, 0⟩ (be32 y))) 0, .act (.gotPdu c (replyBuf ⟨2, 0⟩ (be32 y))) 0,
    .act (.finish c 1) 0]

theorem calls_are_local_two :
    let es := bindsTo 4 0 ++ bindsTo 5 1 ++ addsTo 4 5 5 0 ++ addsTo 5 2 7 1
    ∃ s ca, run (BufferedRemote.step adding) (BufferedRemote.init adding 9 0) es = some s ∧
      (s.clients 5).caller 1 = some ca ∧ ca.returned = true ∧ 0 ≤ ca.result ∧ s.obj = 7 ∧
      LocalCalls adding 9 0 s.plain ((BufferedRemote.init adding 9 0).executions adding es) := by
  intro es
  obtain ⟨s,hrun,⟨ca,hca,hret,hres⟩,hobj⟩ := reaches_of_any (BufferedRemote.step adding)
    (fun s => (∃ ca ∈ (s.clients 5).caller 1, ca.returned = true ∧ 0 ≤ ca.result) ∧ s.obj = 7)
    (BufferedRemote.init adding 9 0) es (by decide +kernel)
  have htyped : ∀ e ∈ es.flatMap Buffered.plain, e.Typed (handler 9 adding) := by
    simp [es, bindsTo, addsTo, Buffered.plain, RemoteEvent.Typed, handler, rpcbind,
      adding, bindProc]
  have hfew : ∀ c, callsMade ((es.flatMap Buffered.plain).flatMap (RemoteEvent.view c)) < 2^32-1 :=
    fun c => Nat.lt_of_le_of_lt (callsMade_view_le c (es.flatMap Buffered.plain)) (by decide)
  exact ⟨s, ca, hrun, hca, hret, hres, hobj, calls_are_local (by decide +kernel) hrun hfew htyped⟩

end DisconnectedYfs.RPC
