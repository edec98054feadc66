import DisconnectedYfs.RPCClient

/-! The server endpoint (`rpcs::dispatch` in `rpc/rpc.cc`). A request is checked against the
server's nonce and the at-most-once tables in one piece; its handler then runs for as long as it
likes, and the end of `dispatch` stores and sends its reply. -/
namespace DisconnectedYfs.RPC

/-- An `rpcs` instance: its nonce, the procedures registered with it besides `bind`, the
at-most-once tables, and the requests whose handlers are running. -/
structure Server where
  nonce : UInt32
  procs : Int32 → Bool
  tables : Rpcs := {}
  running : List ReqHeader := []

namespace Server

/-- The request is meant for another instance of the server. -/
def refuses (s : Server) (h : ReqHeader) : Prop := h.srvNonce ≠ 0 ∧ h.srvNonce ≠ s.nonce

instance (s : Server) (h : ReqHeader) : Decidable (s.refuses h) :=
  inferInstanceAs (Decidable (_ ∧ _))

/-- `checkduplicate_and_update` with the fields of a header. -/
def check (s : Server) (h : ReqHeader) : Option (Rpcs × RpcState) :=
  dispatchCheck s.tables h.cltNonce.toNat h.xid.toUInt32.toNat h.xidRep.toUInt32.toNat

/-- What `dispatch` sends at once for each classification. -/
def answers (h : ReqHeader) : RpcState → List Bytes
  | .new => []
  | .inProgress => []
  | .done b _ => [b.getD []]
  | .forgotten => [replyBuf ⟨h.xid, atmostonceFailure⟩ []]

/-- `dispatch` up to the handler, with the replies it sends; `none` is a failed `VERIFY`. -/
def dispatch (s : Server) (h : ReqHeader) : Option (Server × List Bytes) :=
  if s.refuses h then some (s, [replyBuf ⟨h.xid, oldsrvFailure⟩ []])
  else if ¬ (h.proc = bindProc ∨ s.procs h.proc) then none
  else
    (s.check h).map (fun (t, v) =>
      ({ s with tables := t, running := if v = .new then h :: s.running else s.running },
        answers h v))

/-- What a handler may return: `rpcbind` answers the nonce, others anything that `VERIFY(rh.ret >=
0)` lets through and that fits into a marshaller. -/
def mayReturn (s : Server) (h : ReqHeader) (ret : Int32) (body : Bytes) : Bool :=
  0 ≤ ret ∧ (replyBuf ⟨h.xid, ret⟩ body).length < 2^31 ∧
    (h.proc = bindProc → ret = 0 ∧ body = be32 s.nonce)

/-- `dispatch` from the end of the handler on: only clients that ask for at-most-once have their
replies remembered. -/
def reply (s : Server) (h : ReqHeader) (ret : Int32) (body : Bytes) : Option (Server × Bytes) :=
  if h ∈ s.running ∧ s.mayReturn h ret body then
    let b := replyBuf ⟨h.xid, ret⟩ body
    let s := { s with running := s.running.erase h }
    if h.cltNonce > 0 then
      (addReply s.tables h.cltNonce.toNat h.xid.toUInt32.toNat b b.length).map
        (fun t => ({ s with tables := t }, b))
    else some (s, b)
  else none

/-- All that `dispatch` can do with a request. -/
theorem dispatch_cases {s s' : Server} {h : ReqHeader} {out : List Bytes}
    (hd : s.dispatch h = some (s', out)) :
    (s.refuses h ∧ s' = s ∧ out = [replyBuf ⟨h.xid, oldsrvFailure⟩ []]) ∨
    (¬ s.refuses h ∧ ∃ t v, s.check h = some (t, v) ∧
      s' = { s with tables := t, running := if v = .new then h :: s.running else s.running } ∧
      out = answers h v) := by
  unfold dispatch at hd
  split_ifs at hd with href hproc
  · obtain ⟨rfl,rfl⟩ := Option.some.inj hd
    exact Or.inl ⟨href, rfl, rfl⟩
  · obtain ⟨⟨t,v⟩,hv,hres⟩ := Option.map_eq_some_iff.mp hd
    obtain ⟨rfl,rfl⟩ := hres
    exact Or.inr ⟨href, t, v, hv, rfl, rfl⟩

/-- All that the end of a handler can do. -/
theorem reply_cases {s s' : Server} {h : ReqHeader} {ret : Int32} {body b : Bytes}
    (hr : s.reply h ret body = some (s', b)) :
    h ∈ s.running ∧ s.mayReturn h ret body = true ∧ b = replyBuf ⟨h.xid, ret⟩ body ∧
    ∃ t, s' = { s with tables := t, running := s.running.erase h } ∧
      ((h.cltNonce = 0 ∧ t = s.tables) ∨ (h.cltNonce ≠ 0 ∧
        addReply s.tables h.cltNonce.toNat h.xid.toUInt32.toNat b b.length = some t)) := by
  unfold reply at hr
  split_ifs at hr with hrun hpos
  · obtain ⟨t,ht,hres⟩ := Option.map_eq_some_iff.mp hr
    obtain ⟨rfl,rfl⟩ := hres
    refine ⟨hrun.1, hrun.2, rfl, t, rfl, Or.inr ⟨?_, ht⟩⟩
    rintro hz
    rw [hz] at hpos
    exact absurd hpos (by decide)
  · obtain ⟨rfl,rfl⟩ := Option.some.inj hr
    refine ⟨hrun.1, hrun.2, rfl, s.tables, rfl, Or.inl ⟨?_, rfl⟩⟩
    have hle : h.cltNonce.toNat ≤ 0 := Nat.le_of_not_lt hpos
    exact UInt32.toNat_inj.mp (Nat.le_zero.mp hle)

end Server

/-- One client and one server, and every message either of them has ever sent: the network may
deliver each of them any number of times, at any time, or never. -/
structure Net where
  client : Rpcc
  server : Server
  requests : List ReqHeader := []
  replies : List Bytes := []

inductive NetEvent where
  | start (id : ℕ) (proc : Int32)
  | transmit (id : ℕ)
  | deliver (h : ReqHeader)
  | handled (h : ReqHeader) (ret : Int32) (body : Bytes)
  | gotPdu (b : Bytes)
  | finish (id : ℕ)
  | bind (id : ℕ)
deriving DecidableEq, Repr

namespace Net

/-- The constructors of `rpcc` and `rpcs`. -/
def init (cltNonce nonce : UInt32) (procs : Int32 → Bool) : Net :=
  { client := { cltNonce := cltNonce }, server := { nonce := nonce, procs := procs } }

/-- A call transmits the header it has packed as often as it likes until it returns. -/
def step (s : Net) : NetEvent → Option Net
  | .start id proc => (s.client.start id proc).map (fun c => { s with client := c })
  | .transmit id =>
    match s.client.caller id with
    | none => none
    | some ca => if ca.returned then none else some { s with requests := ca.req :: s.requests }
  | .deliver h =>
    if h ∈ s.requests then
      (s.server.dispatch h).map (fun p => { s with server := p.1, replies := p.2 ++ s.replies })
    else none
  | .handled h ret body =>
    (s.server.reply h ret body).map
      (fun p => { s with server := p.1, replies := p.2 :: s.replies })
  | .gotPdu b => if b ∈ s.replies then some { s with client := s.client.gotPdu b } else none
  | .finish id => (s.client.finish id).map (fun c => { s with client := c })
  | .bind id => (s.client.bind id).map (fun c => { s with client := c })

/-- All that one step can do, by its label. -/
theorem step_cases {s s' : Net} {e : NetEvent} (h : s.step e = some s') :
    match e with
    | .start id proc => ∃ k, s.client.start id proc = some k ∧ s' = { s with client := k }
    | .transmit id => ∃ ca, s.client.caller id = some ca ∧ ca.returned = false ∧
        s' = { s with requests := ca.req :: s.requests }
    | .deliver r => r ∈ s.requests ∧ ∃ srv out, s.server.dispatch r = some (srv, out) ∧
        s' = { s with server := srv, replies := out ++ s.replies }
    | .handled r ret body => ∃ srv b, s.server.reply r ret body = some (srv, b) ∧
        s' = { s with server := srv, replies := b :: s.replies }
    | .gotPdu b => b ∈ s.replies ∧ s' = { s with client := s.client.gotPdu b }
    | .finish id => ∃ k, s.client.finish id = some k ∧ s' = { s with client := k }
    | .bind id => ∃ k, s.client.bind id = some k ∧ s' = { s with client := k } := by
  cases e with
  | start id proc =>
    obtain ⟨k,hk,hs⟩ := Option.map_eq_some_iff.mp h
    exact ⟨k, hk, hs.symm⟩
  | transmit id =>
    simp only [step] at h
    split at h
    · contradiction
    · rename_i ca hca
      split_ifs at h with hret
      exact ⟨ca, hca, Bool.not_eq_true _ ▸ hret, (Option.some.inj h).symm⟩
  | deliver r =>
    simp only [step] at h
    split_ifs at h with hr
    obtain ⟨⟨srv,out⟩,hd,hs⟩ := Option.map_eq_some_iff.mp h
    exact ⟨hr, srv, out, hd, hs.symm⟩
  | handled r ret body =>
    obtain ⟨⟨srv,b⟩,hb,hs⟩ := Option.map_eq_some_iff.mp h
    exact ⟨srv, b, hb, hs.symm⟩
  | gotPdu b =>
    simp only [step] at h
    split_ifs at h with hb
    exact ⟨hb, (Option.some.inj h).symm⟩
  | finish id =>
    obtain ⟨k,hk,hs⟩ := Option.map_eq_some_iff.mp h
    exact ⟨k, hk, hs.symm⟩
  | bind id =>
    obtain ⟨k,hk,hs⟩ := Option.map_eq_some_iff.mp h
    exact ⟨k, hk, hs.symm⟩

end Net
end DisconnectedYfs.RPC
