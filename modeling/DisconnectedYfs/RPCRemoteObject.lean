import DisconnectedYfs.RPCTypedCalls
import DisconnectedYfs.RPCClientViews
import DisconnectedYfs.RPCLiveCalls

/-! Clients, a server and the object behind the server's methods, with whole messages on the way
between them. Each method runs in one piece, as those of the extent and the lock server do under
their mutex. Clients are named by their nonces. What one of them and the server do is what they do
in `Net`, whatever the messages hold and whatever the other clients do. -/
namespace DisconnectedYfs.RPC
open TraceSystem
attribute [local irreducible] parseReply parseReq marshalled

/-- `args` and `bodies` are what the calls of each client were given and what it was marshalled
into; `jobs` are the requests whose methods have not run, and `outs` the results that have not been
sent. -/
structure Remote (σ : Type) where
  clients : UInt32 → Rpcc
  server : Server
  obj : σ
  args : UInt32 → ℕ → List Value := fun _ _ => []
  bodies : UInt32 → ℕ → Bytes := fun _ _ => []
  packets : List Bytes := []
  replies : List (UInt32 × Bytes) := []
  jobs : List (ReqHeader × Bytes) := []
  outs : List (ReqHeader × Int32 × Bytes) := []

inductive RemoteEvent (ω : Type) where
  | start (c : UInt32) (id : ℕ) (proc : Int32) (args : List Value)
  | transmit (c : UInt32) (id : ℕ)
  | deliver (b : Bytes)
  | method (h : ReqHeader) (b : Bytes) (w : ω)
  | handled (h : ReqHeader) (ret : Int32) (body : Bytes)
  | gotPdu (c : UInt32) (b : Bytes)
  | finish (c : UInt32) (id : ℕ)
  | bind (c : UInt32) (id : ℕ)

/-- A method that has run: the request, the arguments, what it found outside, what it returned and
its result. -/
structure Execution (ω : Type) where
  req : ReqHeader
  args : List Value
  env : ω
  ret : Int32
  res : Value

section
variable {σ ω : Type}

/-- `procs_`: the constructor of `rpcs` registers `rpcbind`. -/
def handler (nonce : UInt32) (methods : Int32 → Option (Method σ ω)) (proc : Int32) :
    Option (Method σ ω) :=
  if proc = bindProc then some (rpcbind nonce) else methods proc

namespace Remote

def init (methods : Int32 → Option (Method σ ω)) (nonce : UInt32) (obj : σ) : Remote σ :=
  { clients := fun c => { cltNonce := c }, obj := obj,
    server := { nonce := nonce, procs := fun proc => (methods proc).isSome } }

variable (methods : Int32 → Option (Method σ ω)) (s : Remote σ)

/-- The handler of the request, and the arguments that are left to be read. -/
def serves (h : ReqHeader) (b : Bytes) : Option (Method σ ω × Unmarshall) :=
  (handler s.server.nonce methods h.proc).bind (fun f => (parseReq b).map (fun p => (f, p.2)))

def setClient (c : UInt32) (k : Rpcc) : Remote σ :=
  { s with clients := Function.update s.clients c k }

/-- The arguments of a call of a client, and what they were marshalled into. -/
def given (c : UInt32) (id : ℕ) (args : List Value) (body : Bytes) : Remote σ :=
  { s with
    args := Function.update s.args c (Function.update (s.args c) id args),
    bodies := Function.update s.bodies c (Function.update (s.bodies c) id body) }

def step (s : Remote σ) : RemoteEvent ω → Option (Remote σ)
  | .start c id proc args =>
    (marshalled args).bind (fun body => ((s.clients c).start id proc).map (fun k =>
      (s.given c id args body).setClient c k))
  | .transmit c id =>
    ((s.clients c).caller id).bind (fun ca =>
      if ca.returned then none
      else some { s with packets := reqBuf ca.req (s.bodies c id) :: s.packets })
  | .deliver b =>
    if s.packets.contains b then
      match parseReq b with
      | none => some s
      | some (h, _) => (s.server.dispatch h).map (fun p =>
        { s with
          server := p.1, replies := p.2.map (fun r => (h.cltNonce, r)) ++ s.replies,
          jobs := if s.server.runs h then (h, b) :: s.jobs else s.jobs })
    else none
  | .method h b w =>
    if (h, b) ∈ s.jobs then
      (s.serves methods h b).bind (fun q => (q.1.answer w s.obj q.2).map (fun a =>
        { s with
          obj := a.2.2, jobs := s.jobs.erase (h, b), outs := (h, a.1, a.2.1) :: s.outs }))
    else none
  | .handled h ret body =>
    if (h, ret, body) ∈ s.outs then
      (s.server.reply h ret body).map (fun p =>
        { s with
          server := p.1, replies := (h.cltNonce, p.2) :: s.replies,
          outs := s.outs.erase (h, ret, body) })
    else none
  | .gotPdu c b =>
    if (c, b) ∈ s.replies then some (s.setClient c ((s.clients c).gotPdu b)) else none
  | .finish c id => ((s.clients c).finish id).map (s.setClient c)
  | .bind c id => ((s.clients c).bind id).map (s.setClient c)

/-- What the method of a request does if it runs now. -/
def execution (h : ReqHeader) (b : Bytes) (w : ω) : Option (Execution ω) :=
  (s.serves methods h b).bind (fun q =>
    let vs := (shrAll q.1.args q.2).1
    (q.1.meth vs w s.obj).map (fun r => ⟨h, vs, w, r.1.1, ⟨q.1.res, r.1.2⟩⟩))

def noteMethod (s : Remote σ) (e : RemoteEvent ω) (_ : Remote σ) (log : List (Execution ω)) :
    List (Execution ω) :=
  match e with
  | .method h b w => log ++ (s.execution methods h b w).toList
  | _ => log

/-- The methods that have run, in their order. -/
def executions (s : Remote σ) (es : List (RemoteEvent ω)) : List (Execution ω) :=
  observed (step methods) (noteMethod methods) s [] es

/-- What a client and the server are to each other, without what the messages hold. -/
def view (c : UInt32) : Net where
  client := s.clients c
  server := s.server.only c
  requests := s.packets.filterMap (fun b =>
    (parseReq b).bind (fun p => if p.1.cltNonce = c then some p.1 else none))
  replies := s.replies.filterMap (fun p => if p.1 = c then some p.2 else none)

end Remote

/-- What a client and the server do in a step. -/
def RemoteEvent.view (c : UInt32) : RemoteEvent ω → List NetEvent
  | .start d id proc _ => if d = c then [.start id proc] else []
  | .transmit d id => if d = c then [.transmit id] else []
  | .deliver b => ((parseReq b).bind (fun p =>
      if p.1.cltNonce = c then some (NetEvent.deliver p.1) else none)).toList
  | .method .. => []
  | .handled h ret body => if h.cltNonce = c then [.handled h ret body] else []
  | .gotPdu d b => if d = c then [.gotPdu b] else []
  | .finish d id => if d = c then [.finish id] else []
  | .bind d id => if d = c then [.bind id] else []

section
variable {methods : Int32 → Option (Method σ ω)} {s s' : Remote σ} {e : RemoteEvent ω}

/-- What each step does. -/
inductive Remote.Moves (methods : Int32 → Option (Method σ ω)) (s : Remote σ) :
    RemoteEvent ω → Remote σ → Prop
  | start {c id proc args body k} (hm : marshalled args = some body)
      (hk : (s.clients c).start id proc = some k) :
      Moves methods s (.start c id proc args) ((s.given c id args body).setClient c k)
  | transmit {c id ca} (hca : (s.clients c).caller id = some ca) (hret : ca.returned = false) :
      Moves methods s (.transmit c id)
        { s with packets := reqBuf ca.req (s.bodies c id) :: s.packets }
  | garbled {b} (hb : b ∈ s.packets) (hp : parseReq b = none) : Moves methods s (.deliver b) s
  | deliver {b h u srv out} (hb : b ∈ s.packets) (hp : parseReq b = some (h, u))
      (hd : s.server.dispatch h = some (srv, out)) :
      Moves methods s (.deliver b) { s with
        server := srv, replies := out.map (fun r => (h.cltNonce, r)) ++ s.replies,
        jobs := if s.server.runs h then (h, b) :: s.jobs else s.jobs }
  | method {h b w f h' u ret body st} (hj : (h, b) ∈ s.jobs)
      (hf : handler s.server.nonce methods h.proc = some f) (hp : parseReq b = some (h', u))
      (ha : f.answer w s.obj u = some (ret, body, st)) :
      Moves methods s (.method h b w) { s with
        obj := st, jobs := s.jobs.erase (h, b), outs := (h, ret, body) :: s.outs }
  | handled {h ret body srv b} (ho : (h, ret, body) ∈ s.outs)
      (hr : s.server.reply h ret body = some (srv, b)) :
      Moves methods s (.handled h ret body) { s with
        server := srv, replies := (h.cltNonce, b) :: s.replies,
        outs := s.outs.erase (h, ret, body) }
  | gotPdu {c b} (hb : (c, b) ∈ s.replies) :
      Moves methods s (.gotPdu c b) (s.setClient c ((s.clients c).gotPdu b))
  | finish {c id k} (hk : (s.clients c).finish id = some k) :
      Moves methods s (.finish c id) (s.setClient c k)
  | bind {c id k} (hk : (s.clients c).bind id = some k) :
      Moves methods s (.bind c id) (s.setClient c k)

theorem Remote.serves_some {h : ReqHeader} {b : Bytes} {f : Method σ ω} {u : Unmarshall}
    (hs : s.serves methods h b = some (f, u)) :
    handler s.server.nonce methods h.proc = some f ∧ ∃ h', parseReq b = some (h', u) := by
  obtain ⟨f',hf,hs⟩ := Option.bind_eq_some_iff.mp hs
  obtain ⟨p,hp,heq⟩ := Option.map_eq_some_iff.mp hs
  cases heq
  exact ⟨hf, p.1, hp⟩

theorem Remote.step_moves (h : s.step methods e = some s') : s.Moves methods e s' := by
  cases e with
  | start c id proc args =>
    obtain ⟨body,hm,h⟩ := Option.bind_eq_some_iff.mp h
    obtain ⟨k,hk,rfl⟩ := Option.map_eq_some_iff.mp h
    exact .start hm hk
  | transmit c id =>
    obtain ⟨ca,hca,h⟩ := Option.bind_eq_some_iff.mp h
    split_ifs at h with hret
    cases h
    exact .transmit hca (by simpa using hret)
  | deliver b =>
    simp only [Remote.step, List.contains_iff_mem] at h
    split_ifs at h with hb
    split at h
    · rename_i hp
      cases h
      exact .garbled hb hp
    · rename_i r u hp
      obtain ⟨⟨srv,out⟩,hd,rfl⟩ := Option.map_eq_some_iff.mp h
      exact .deliver hb hp hd
  | method r b w =>
    simp only [Remote.step] at h
    split_ifs at h with hj
    obtain ⟨⟨f,u⟩,hs,h⟩ := Option.bind_eq_some_iff.mp h
    obtain ⟨⟨ret,body,st⟩,ha,rfl⟩ := Option.map_eq_some_iff.mp h
    obtain ⟨hf,h',hp⟩ := Remote.serves_some hs
    exact .method hj hf hp ha
  | handled r ret body =>
    simp only [Remote.step] at h
    split_ifs at h with ho
    obtain ⟨⟨srv,b⟩,hr,rfl⟩ := Option.map_eq_some_iff.mp h
    exact .handled ho hr
  | gotPdu c b =>
    simp only [Remote.step] at h
    split_ifs at h with hb
    cases h
    exact .gotPdu hb
  | finish c id =>
    obtain ⟨k,hk,rfl⟩ := Option.map_eq_some_iff.mp h
    exact .finish hk
  | bind c id =>
    obtain ⟨k,hk,rfl⟩ := Option.map_eq_some_iff.mp h
    exact .bind hk

/-- Requests are what the calls have marshalled. -/
structure Remote.Sound (s : Remote σ) : Prop where
  nonces : ∀ c, (s.clients c).cltNonce = c
  packed : ∀ c id ca, (s.clients c).caller id = some ca → ca.req.cltNonce = c
  bodies : ∀ c id ca, (s.clients c).caller id = some ca →
    s.bodies c id = encodeAll (s.args c id) ∧ rpcHeaderSz+(s.bodies c id).length < 2^31
  packets : ∀ b ∈ s.packets, ∃ c id ca, (s.clients c).caller id = some ca ∧
    b = reqBuf ca.req (s.bodies c id)
  jobs : ∀ h b, (h, b) ∈ s.jobs → b ∈ s.packets ∧ ∃ u, parseReq b = some (h, u)

section
variable {c d : UInt32} {k : Rpcc} {f : NetEvent}

theorem view_setClient (hd : d ≠ c) : (s.setClient d k).view c = s.view c := by
  simp only [Remote.view, Remote.setClient, Function.update_of_ne (Ne.symm hd)]

theorem view_setClient_self : (s.setClient c k).view c = { s.view c with client := k } := by
  simp only [Remote.view, Remote.setClient, Function.update_self]

/-- A step of one client is none of another. -/
theorem client_simulates (hf : (s.view d).step f = some { s.view d with client := k }) :
    run Net.step (s.view c) (if d = c then [f] else []) = some ((s.setClient d k).view c) := by
  by_cases hd : d = c
  · subst hd
    rw [if_pos rfl, view_setClient_self, run_cons, hf]
    rfl
  · rw [if_neg hd, view_setClient hd]
    rfl

end

/-- A client gets what was sent to it. -/
theorem sent_self (c : UInt32) (out : List Bytes) (l : List (UInt32 × Bytes)) :
    (out.map (fun r => (c, r)) ++ l).filterMap (fun p => if p.1 = c then some p.2 else none) =
      out ++ l.filterMap (fun p => if p.1 = c then some p.2 else none) := by
  induction out with
  | nil => rfl
  | cons r out ih => simp only [List.map_cons, List.cons_append, List.filterMap_cons, if_true, ih]

theorem sent_other {c d : UInt32} (hd : d ≠ c) (out : List Bytes) (l : List (UInt32 × Bytes)) :
    (out.map (fun r => (d, r)) ++ l).filterMap (fun p => if p.1 = c then some p.2 else none) =
      l.filterMap (fun p => if p.1 = c then some p.2 else none) := by
  induction out with
  | nil => rfl
  | cons r out ih => simp only [List.map_cons, List.cons_append, List.filterMap_cons, if_neg hd, ih]

/-- The server and each client do what they do in `Net`. -/
theorem Remote.Sound.simulates (hs : s.Sound) (hm : s.Moves methods e s') (c : UInt32) :
    run Net.step (s.view c) (e.view c) = some (s'.view c) := by
  cases hm with
  | start hm hk =>
    apply client_simulates (s := s.given _ _ _ _)
    simp [Net.step, Remote.view, Remote.given, hk]
  | @transmit d id ca hca hret =>
    have hnonce := hs.packed d id ca hca
    obtain ⟨u,hp,-⟩ := parseReq_reqBuf ca.req (s.bodies d id) (hs.bodies d id ca hca).2
    by_cases hd : d = c
    · subst hd
      simp [RemoteEvent.view, Remote.view, Net.step, hca, hret, hp, hnonce]
    · simp [RemoteEvent.view, Remote.view, hd, hp, hnonce]
  | garbled hb hp => simp [RemoteEvent.view, hp]
  | @deliver b h u srv out hb hp hd =>
    by_cases hc : h.cltNonce = c
    · subst hc
      have hreq : h ∈ (s.view h.cltNonce).requests :=
        List.mem_filterMap.mpr ⟨b, hb, by simp [hp]⟩
      simp only [RemoteEvent.view, hp, Option.bind_some, if_true, Option.toList_some, run_cons,
        Net.step]
      rw [if_pos hreq]
      simp only [Remote.view, dispatch_view hd, sent_self, Option.map_some, Option.bind_some,
        run_nil]
    · have hother := dispatch_view_other hc hd
      simp only [RemoteEvent.view, Remote.view, hp, Option.bind_some, if_neg hc, hother,
        sent_other hc, Option.toList_none, run_nil]
  | method => rfl
  | @handled h ret body srv b ho hr =>
    by_cases hc : h.cltNonce = c
    · subst hc
      simp [RemoteEvent.view, Remote.view, Net.step, reply_view hr]
    · simp [RemoteEvent.view, Remote.view, hc, reply_view_other hc hr]
  | @gotPdu d b hb =>
    apply client_simulates
    have hmem : b ∈ (s.view d).replies := List.mem_filterMap.mpr ⟨(d, b), hb, by simp⟩
    simp only [Net.step]
    rw [if_pos hmem]
    rfl
  | finish hk =>
    apply client_simulates
    simp [Net.step, Remote.view, hk]
  | bind hk =>
    apply client_simulates
    simp [Net.step, Remote.view, hk]

end

end

end DisconnectedYfs.RPC
