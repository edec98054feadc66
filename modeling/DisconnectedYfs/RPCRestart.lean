import DisconnectedYfs.RPCReplyDelivery

/-! Server instances that replace one another. A request is packed once, with the nonce its client
has from a bind call, and it may arrive at any instance, any number of times and long after the one
it was meant for is gone. Only bind requests travel with nonce 0, which every instance accepts.

Instances are named by their nonces, and clients by theirs; clients that do not ask for
at-most-once all have nonce 0 and are told apart by a number. An instance that has been replaced
is not taken away: that it may still answer only adds runs. -/
namespace DisconnectedYfs.RPC
open TraceSystem
attribute [local irreducible] parseReply

inductive ClientId where
  | nonce (n : UInt32) (h : n ≠ 0)
  | plain (i : ℕ)
deriving DecidableEq, Repr

/-- `clt_nonce_`. -/
def ClientId.cltNonce : ClientId → UInt32
  | .nonce n _ => n
  | .plain _ => 0

/-- An `rpcs` with the state its procedures work on; `jobs` are its running handlers, with the
client whose connection the request came over. -/
structure Instance (σ : Type) where
  server : Server
  state : σ
  jobs : List (ClientId × ReqHeader) := []

/-- All clients, all instances started so far, and everything ever sent. -/
structure Cluster (σ : Type) where
  clients : ClientId → Rpcc := fun c => { cltNonce := c.cltNonce }
  instances : UInt32 → Option (Instance σ) := fun _ => none
  requests : List (ClientId × ReqHeader) := []
  replies : List (ClientId × Bytes) := []

inductive ClusterEvent (σ : Type) where
  | boot (N : UInt32) (procs : Int32 → Bool) (st : σ)
  | start (c : ClientId) (id : ℕ) (proc : Int32)
  | transmit (c : ClientId) (id : ℕ)
  | deliver (c : ClientId) (h : ReqHeader) (N : UInt32)
  | works (c : ClientId) (h : ReqHeader) (N : UInt32) (st : σ)
  | handled (c : ClientId) (h : ReqHeader) (N : UInt32) (ret : Int32) (body : Bytes)
  | gotPdu (c : ClientId) (b : Bytes)
  | finish (c : ClientId) (id : ℕ)
  | bind (c : ClientId) (id : ℕ)

/-- `dispatch` will call the handler. -/
def Server.runs (s : Server) (h : ReqHeader) : Bool :=
  !decide (s.refuses h) && ((s.check h).any (fun p => p.2 == .new))

namespace Instance
variable {σ : Type}

def dispatch (i : Instance σ) (c : ClientId) (h : ReqHeader) : Option (Instance σ × List Bytes) :=
  (i.server.dispatch h).map (fun p =>
    ({ i with server := p.1, jobs := if i.server.runs h then (c, h) :: i.jobs else i.jobs }, p.2))

/-- A running handler does something to the state of the procedures. -/
def works (i : Instance σ) (c : ClientId) (h : ReqHeader) (st : σ) : Option (Instance σ) :=
  if (c, h) ∈ i.jobs then some { i with state := st } else none

def reply (i : Instance σ) (c : ClientId) (h : ReqHeader) (ret : Int32) (body : Bytes) :
    Option (Instance σ × Bytes) :=
  if (c, h) ∈ i.jobs then
    (i.server.reply h ret body).map (fun p =>
      ({ i with server := p.1, jobs := i.jobs.erase (c, h) }, p.2))
  else none

end Instance

namespace Cluster
variable {σ : Type}

def setClient (s : Cluster σ) (c : ClientId) (k : Rpcc) : Cluster σ :=
  { s with clients := Function.update s.clients c k }

def setInstance (s : Cluster σ) (N : UInt32) (i : Instance σ) : Cluster σ :=
  { s with instances := Function.update s.instances N (some i) }

/-- The network takes the buffers an instance sends back to the client they are for. -/
def sends (s : Cluster σ) (c : ClientId) (out : List Bytes) : Cluster σ :=
  { s with replies := out.map (fun b => (c, b)) ++ s.replies }

def step (s : Cluster σ) : ClusterEvent σ → Option (Cluster σ)
  | .boot N procs st =>
    -- nonces are not zero and never drawn twice
    if N ≠ 0 ∧ (s.instances N).isNone then
      some (s.setInstance N { server := { nonce := N, procs := procs }, state := st })
    else none
  | .start c id proc => ((s.clients c).start id proc).map (s.setClient c)
  | .transmit c id =>
    match (s.clients c).caller id with
    | none => none
    | some ca =>
      if ca.returned then none else some { s with requests := (c, ca.req) :: s.requests }
  | .deliver c h N =>
    if (c, h) ∈ s.requests then
      (s.instances N).bind (fun i =>
        (i.dispatch c h).map (fun p => (s.setInstance N p.1).sends c p.2))
    else none
  | .works c h N st =>
    (s.instances N).bind (fun i => (i.works c h st).map (s.setInstance N))
  | .handled c h N ret body =>
    (s.instances N).bind (fun i =>
      (i.reply c h ret body).map (fun p => (s.setInstance N p.1).sends c [p.2]))
  | .gotPdu c b =>
    if (c, b) ∈ s.replies then some (s.setClient c ((s.clients c).gotPdu b)) else none
  | .finish c id => ((s.clients c).finish id).map (s.setClient c)
  | .bind c id => ((s.clients c).bind id).map (s.setClient c)

/-- All that one step can do, by its label. -/
theorem step_cases {s s' : Cluster σ} {e : ClusterEvent σ} (h : s.step e = some s') :
    match e with
    | .boot N procs st => N ≠ 0 ∧ s.instances N = none ∧
        s' = s.setInstance N { server := { nonce := N, procs := procs }, state := st }
    | .start c id proc => ∃ k, (s.clients c).start id proc = some k ∧ s' = s.setClient c k
    | .transmit c id => ∃ ca, (s.clients c).caller id = some ca ∧
        s' = { s with requests := (c, ca.req) :: s.requests }
    | .deliver c r N => (c, r) ∈ s.requests ∧ ∃ i srv out, s.instances N = some i ∧
        i.server.dispatch r = some (srv, out) ∧
        s' = (s.setInstance N { i with
          server := srv,
          jobs := if i.server.runs r then (c, r) :: i.jobs else i.jobs }).sends c out
    | .works c r N st => ∃ i, s.instances N = some i ∧ (c, r) ∈ i.jobs ∧
        s' = s.setInstance N { i with state := st }
    | .handled c r N ret body => ∃ i srv b, s.instances N = some i ∧ (c, r) ∈ i.jobs ∧
        i.server.reply r ret body = some (srv, b) ∧
        s' = (s.setInstance N { i with server := srv, jobs := i.jobs.erase (c, r) }).sends c [b]
    | .gotPdu c b => (c, b) ∈ s.replies ∧ s' = s.setClient c ((s.clients c).gotPdu b)
    | .finish c id => ∃ k, (s.clients c).finish id = some k ∧ s' = s.setClient c k
    | .bind c id => ∃ k, (s.clients c).bind id = some k ∧ s' = s.setClient c k := by
  cases e with
  | boot N procs st =>
    simp only [step] at h
    split_ifs at h with hN
    exact ⟨hN.1, Option.isNone_iff_eq_none.mp hN.2, (Option.some.inj h).symm⟩
  | start c id proc =>
    obtain ⟨k,hk,hs⟩ := Option.map_eq_some_iff.mp h
    exact ⟨k, hk, hs.symm⟩
  | transmit c id =>
    simp only [step] at h
    split at h
    · contradiction
    · rename_i ca hca
      split_ifs at h
      exact ⟨ca, hca, (Option.some.inj h).symm⟩
  | deliver c r N =>
    simp only [step] at h
    split_ifs at h with hr
    obtain ⟨i,hi,hd⟩ := Option.bind_eq_some_iff.mp h
    obtain ⟨p,hp,hs⟩ := Option.map_eq_some_iff.mp hd
    obtain ⟨⟨srv,out⟩,hsrv,rfl⟩ := Option.map_eq_some_iff.mp hp
    exact ⟨hr, i, srv, out, hi, hsrv, hs.symm⟩
  | works c r N st =>
    obtain ⟨i,hi,hd⟩ := Option.bind_eq_some_iff.mp h
    obtain ⟨i',hi',hs⟩ := Option.map_eq_some_iff.mp hd
    unfold Instance.works at hi'
    split_ifs at hi' with hjob
    obtain rfl := Option.some.inj hi'
    exact ⟨i, hi, hjob, hs.symm⟩
  | handled c r N ret body =>
    obtain ⟨i,hi,hd⟩ := Option.bind_eq_some_iff.mp h
    obtain ⟨p,hp,hs⟩ := Option.map_eq_some_iff.mp hd
    unfold Instance.reply at hp
    split_ifs at hp with hjob
    obtain ⟨⟨srv,b⟩,hsrv,rfl⟩ := Option.map_eq_some_iff.mp hp
    exact ⟨i, srv, b, hi, hjob, hsrv, hs.symm⟩
  | gotPdu c b =>
    simp only [step] at h
    split_ifs at h with hb
    exact ⟨hb, (Option.some.inj h).symm⟩
  | finish c id =>
    obtain ⟨k,hk,hs⟩ := Option.map_eq_some_iff.mp h
    exact ⟨k, hk, hs.symm⟩
  | bind c id =>
    obtain ⟨k,hk,hs⟩ := Option.map_eq_some_iff.mp h
    exact ⟨k, hk, hs.symm⟩

end Cluster

/-! What a client knows of the server's nonce. -/

/-- A bind call of this client returned the nonce `N`, and `bind` has stored it. -/
def Rpcc.Obtained (k : Rpcc) (N : UInt32) : Prop :=
  ∃ id ca, k.caller id = some ca ∧ ca.bound = true ∧ ca.req.proc = bindProc ∧ ca.result = 0 ∧
    ca.un = be32 N

/-- The call has at least the reply it had, and is still the same call. -/
structure Caller.Extends (ca ca' : Caller) : Prop where
  xid : ca'.xid = ca.xid
  req : ca'.req = ca.req
  bound : ca.bound = true → ca'.bound = true
  reply : ca.result = 0 → ca'.result = 0 ∧ ca'.un = ca.un

/-- The header a call packs: bind goes to any instance, everything else to one that a bind call
has answered for. -/
structure Rpcc.Packs (k : Rpcc) (ca : Caller) : Prop where
  xid : ca.req.xid.toUInt32 = ca.xid
  cltNonce : ca.req.cltNonce = k.cltNonce
  srvNonce : ca.req.proc ≠ bindProc → k.Obtained ca.req.srvNonce

/-- Bind calls are answered with the nonce of an instance in `P`, and no call that is not one can
have the xid of a registered bind call. -/
structure Binds (P : UInt32 → Prop) (k : Rpcc) : Prop where
  registered : Registered k
  unbound : k.bindDone = false → ∀ id ca, k.caller id = some ca → ca.req.proc = bindProc
  bound : k.bindDone = true → k.Obtained k.srvNonce
  packed : ∀ id ca, k.caller id = some ca → k.Packs ca
  binding : ∀ x id ca, k.calls x = some id → k.caller id = some ca → ca.req.proc = bindProc →
    ∀ j cj, k.caller j = some cj → cj.xid = x → cj.req.proc = bindProc
  answered : ∀ id ca, k.caller id = some ca → ca.req.proc = bindProc → ca.result = 0 →
    ∃ N, P N ∧ ca.un = be32 N

/-- The buffer, if it is a reply and no failure, answers one of the requests `R`; and a bind
request is answered with the nonce of an instance. -/
def Answers (P : UInt32 → Prop) (R : ReqHeader → Prop) (b : Bytes) : Prop :=
  ∀ h body, parseReply b = some (h, body) → 0 ≤ h.ret →
    ∃ r, R r ∧ r.xid = h.xid ∧ (r.proc = bindProc → ∃ N, P N ∧ body = be32 N)

theorem Rpcc.Obtained.mono {k k' : Rpcc} {N : UInt32}
    (h : ∀ id ca, k.caller id = some ca → ∃ ca', k'.caller id = some ca' ∧ ca.Extends ca')
    (hN : k.Obtained N) : k'.Obtained N := by
  obtain ⟨id,ca,hca,hb,hproc,hres,hun⟩ := hN
  obtain ⟨ca',hca',hext⟩ := h id ca hca
  obtain ⟨hres',hun'⟩ := hext.reply hres
  exact ⟨id, ca', hca', hext.bound hb, hext.req ▸ hproc, hres', hun'.trans hun⟩

theorem Caller.Extends.refl (ca : Caller) : ca.Extends ca :=
  ⟨rfl, rfl, fun h => h, fun h => ⟨h, rfl⟩⟩

theorem takeReply_extends (ca : Caller) (h : ReplyHeader) (body : Bytes) :
    ca.Extends (ca.takeReply h body) := by
  unfold Caller.takeReply
  split_ifs with hd
  · exact Caller.Extends.refl ca
  · refine ⟨rfl, rfl, fun hb => hb, fun hres => ?_⟩
    rw [Caller.result, if_neg hd] at hres
    exact absurd hres (by decide)

/-- One call goes on: it may get its reply, return, or be marked by `bind`. -/
theorem Binds.set {P : UInt32 → Prop} {k : Rpcc} (hk : Binds P k) {j : ℕ} {cj cj' : Caller}
    (hcj : k.caller j = some cj) (hext : cj.Extends cj')
    (hans : cj'.req.proc = bindProc → cj'.result = 0 → ∃ N, P N ∧ cj'.un = be32 N)
    {calls : UInt32 → Option ℕ} (hcalls : ∀ x id, calls x = some id → k.calls x = some id)
    (w : List UInt32)
    (hreg : Registered { k with
      calls := calls, xidRepWindow := w, caller := Function.update k.caller j (some cj') }) :
    Binds P { k with
      calls := calls, xidRepWindow := w, caller := Function.update k.caller j (some cj') } := by
  have hold : ∀ id ca, Function.update k.caller j (some cj') id = some ca →
      ∃ ca₀, k.caller id = some ca₀ ∧ ca₀.Extends ca := by
    intro id ca hca
    rcases caller_update hca with ⟨rfl,rfl⟩ | ⟨-,hca⟩
    · exact ⟨cj, hcj, hext⟩
    · exact ⟨ca, hca, Caller.Extends.refl ca⟩
  have hnew : ∀ id ca, k.caller id = some ca →
      ∃ ca', Function.update k.caller j (some cj') id = some ca' ∧ ca.Extends ca' := by
    intro id ca hca
    by_cases hid : id = j
    · subst hid
      obtain rfl := Option.some.inj (hca.symm.trans hcj)
      exact ⟨cj', Function.update_self _ _ _, hext⟩
    · exact ⟨ca, (Function.update_of_ne hid _ _).trans hca, Caller.Extends.refl ca⟩
  refine ⟨hreg, fun hb id ca hca => ?_, fun hb => ?_, fun id ca hca => ?_,
    fun x id ca hx hca hproc i ci hci hxi => ?_, fun id ca hca hproc hres => ?_⟩
  · obtain ⟨ca₀,hca₀,he⟩ := hold id ca hca
    rw [he.req]
    exact hk.unbound hb id ca₀ hca₀
  · exact (hk.bound hb).mono hnew
  · obtain ⟨ca₀,hca₀,he⟩ := hold id ca hca
    have hp := hk.packed id ca₀ hca₀
    refine ⟨?_, ?_, fun hproc => ?_⟩
    · rw [he.req, he.xid]
      exact hp.xid
    · rw [he.req]
      exact hp.cltNonce
    · rw [he.req] at hproc ⊢
      exact (hp.srvNonce hproc).mono hnew
  · obtain ⟨ca₀,hca₀,he⟩ := hold id ca hca
    obtain ⟨ci₀,hci₀,hei⟩ := hold i ci hci
    rw [hei.req]
    rw [he.req] at hproc
    exact hk.binding x id ca₀ (hcalls x id hx) hca₀ hproc i ci₀ hci₀ (hei.xid ▸ hxi)
  · rcases caller_update hca with ⟨rfl,rfl⟩ | ⟨-,hca⟩
    · exact hans hproc hres
    · exact hk.answered id ca hca hproc hres

theorem Binds.start {P : UInt32 → Prop} {k k' : Rpcc} (hk : Binds P k) {j : ℕ} {proc : Int32}
    (h : k.start j proc = some k') : Binds P k' := by
  have hreg := (start_delivered hk.registered h).1
  obtain ⟨hj,rfl | ⟨hbind,rfl⟩⟩ := Rpcc.start_cases h
  · exact hk
  have hnew : ∀ id ca, k.caller id = some ca →
      ∃ ca', Function.update k.caller j (some (k.newCaller proc)) id = some ca' ∧
        ca.Extends ca' := by
    intro id ca hca
    have hid : id ≠ j := by
      rintro rfl
      rw [hj] at hca
      cases hca
    exact ⟨ca, (Function.update_of_ne hid _ _).trans hca, Caller.Extends.refl ca⟩
  -- a bind call starts only while nothing else has, and what starts later takes over its xid
  have hproc : k.bindDone = false → proc = bindProc := by
    intro hb
    by_contra hne
    rw [hbind.mpr hne] at hb
    cases hb
  refine ⟨hreg, fun hb id ca hca => ?_, fun hb => ?_, fun id ca hca => ?_,
    fun x id ca hx hca hp i ci hci hxi => ?_, fun id ca hca hp hres => ?_⟩
  · rcases caller_update hca with ⟨-,rfl⟩ | ⟨-,hca⟩
    · exact hproc hb
    · exact hk.unbound hb id ca hca
  · exact (hk.bound hb).mono hnew
  · rcases caller_update hca with ⟨-,rfl⟩ | ⟨-,hca⟩
    · refine ⟨rfl, rfl, fun hne => ?_⟩
      exact (hk.bound (hbind.mpr hne)).mono hnew
    · have hp := hk.packed id ca hca
      exact ⟨hp.xid, hp.cltNonce, fun hne => (hp.srvNonce hne).mono hnew⟩
  · rcases update_eq_some hx with ⟨rfl,hid⟩ | ⟨hxk,hold⟩
    · -- the new call itself is registered
      obtain rfl := Option.some.inj hid
      rcases caller_update hca with ⟨-,rfl⟩ | ⟨hne,-⟩
      · have hb : k.bindDone = false := by
          by_contra hb
          exact hbind.mp (Bool.not_eq_false _ ▸ hb) hp
        rcases caller_update hci with ⟨-,rfl⟩ | ⟨-,hci⟩
        · exact hp
        · exact hk.unbound hb i ci hci
      · exact absurd rfl hne
    · rcases caller_update hci with ⟨-,rfl⟩ | ⟨-,hci⟩
      · exact absurd hxi.symm hxk
      · rcases caller_update hca with ⟨rfl,-⟩ | ⟨-,hca⟩
        · obtain ⟨ca',hca',-⟩ := hk.registered x _ hold
          rw [hj] at hca'
          cases hca'
        · exact hk.binding x id ca hold hca hp i ci hci hxi
  · rcases caller_update hca with ⟨-,rfl⟩ | ⟨-,hca⟩
    · exact absurd hres (by change ¬ timeoutFailure = 0; decide)
    · exact hk.answered id ca hca hp hres

theorem Binds.finish {P : UInt32 → Prop} {k k' : Rpcc} (hk : Binds P k) {j : ℕ}
    (h : k.finish j = some k') : Binds P k' := by
  have hreg := (finish_delivered hk.registered h).1
  obtain ⟨cj,hcj,-,rfl⟩ := Rpcc.finish_cases h
  have hext : cj.Extends { cj with returned := true } := ⟨rfl, rfl, fun h => h, fun h => ⟨h, rfl⟩⟩
  refine hk.set hcj hext (hk.answered j cj hcj) ?_ _ hreg
  intro x id hx
  rcases update_eq_some hx with ⟨-,hx⟩ | ⟨-,hx⟩
  · cases hx
  · exact hx

theorem shrInt_be32 (N : UInt32) :
    (Unmarshall.shrInt { buf := fun i => (be32 N).getD i 0, sz := (be32 N).length }).1.toUInt32 =
      N := by
  have hread := reads_shrInt N.toInt32
    { buf := fun i => (be32 N).getD i 0, sz := (be32 N).length }
    ⟨rfl, show 4 < 2^31 by decide, le_refl _, rfl⟩
  rw [hread]
  rfl

theorem Binds.bind {P : UInt32 → Prop} {k k' : Rpcc} (hk : Binds P k) {j : ℕ}
    (h : k.bind j = some k') : Binds P k' := by
  have hreg := (bind_delivered hk.registered h).1
  obtain ⟨cj,r,u,hcj,-,hproc,hres,hr,-,rfl⟩ := Rpcc.bind_cases h
  obtain ⟨N,-,hun⟩ := hk.answered j cj hcj hproc hres
  have hext : cj.Extends { cj with bound := true } :=
    ⟨rfl, rfl, fun _ => rfl, fun h => ⟨h, rfl⟩⟩
  have hs := hk.set hcj hext (hk.answered j cj hcj) (fun _ _ hx => hx) k.xidRepWindow hreg
  have hN : r.toUInt32 = N := by
    have hsh := shrInt_be32 N
    rw [← hun, hr] at hsh
    exact hsh
  refine ⟨hreg, fun hb => ?_, fun _ => ?_, fun id ca hca => ?_, hs.binding, hs.answered⟩
  · cases hb
  · exact ⟨j, _, Function.update_self _ _ _, rfl, hproc, hres, hun.trans (by rw [hN])⟩
  · have hp := hs.packed id ca hca
    exact ⟨hp.xid, hp.cltNonce, hp.srvNonce⟩

/-- A reply goes only to a call with its xid, and if that is a bind call, then it answers one. -/
theorem Binds.gotPdu {P : UInt32 → Prop} {R : ReqHeader → Prop} {k : Rpcc} (hk : Binds P k)
    {b : Bytes} (hb : Answers P R b) (hR : ∀ r, R r → ∃ id ca, k.caller id = some ca ∧ ca.req = r) :
    Binds P (k.gotPdu b) := by
  rcases k.gotPdu_cases b with ⟨-,heq⟩ | ⟨h,body,hp,⟨-,heq⟩ | ⟨j,hj,heq⟩⟩
  · rw [heq]
    exact hk
  · rw [heq]
    exact ⟨hk.registered, hk.unbound, hk.bound,
      fun id ca hca => ⟨(hk.packed id ca hca).xid, (hk.packed id ca hca).cltNonce,
        (hk.packed id ca hca).srvNonce⟩, hk.binding, hk.answered⟩
  · obtain ⟨cj,hcj,hxj,hrj⟩ := hk.registered _ j hj
    have hframe := takeReply_frame cj h body
    have hreg := hk.registered.gotPdu b
    rw [heq, hcj] at hreg ⊢
    refine hk.set hcj (takeReply_extends cj h body) (fun hproc hres => ?_) (fun _ _ hx => hx) _ hreg
    rw [hframe.2.1] at hproc
    by_cases hd : cj.done = true
    · have htake : cj.takeReply h body = cj := if_pos hd
      rw [htake] at hres ⊢
      exact hk.answered j cj hcj hproc hres
    · have htake : cj.takeReply h body = { cj with un := body, intret := h.ret, done := true } :=
        if_neg hd
      rw [htake] at hres ⊢
      have hret : h.ret = 0 := hres
      obtain ⟨r,hr,hx,hbody⟩ := hb h body hp (by rw [hret]; decide)
      obtain ⟨i,ci,hci,hreq⟩ := hR r hr
      apply hbody
      rw [← hreq]
      apply hk.binding _ j cj hj hcj hproc i ci hci
      rw [← (hk.packed i ci hci).xid, hreq, hx]

theorem Answers.mono {P P' : UInt32 → Prop} {R R' : ReqHeader → Prop} {b : Bytes}
    (h : Answers P R b) (hP : ∀ N, P N → P' N) (hR : ∀ r, R r → R' r) : Answers P' R' b := by
  intro h' body hp hpos
  obtain ⟨r,hr,hx,hbind⟩ := h h' body hp hpos
  refine ⟨r, hR r hr, hx, fun hproc => ?_⟩
  obtain ⟨N,hN,hbody⟩ := hbind hproc
  exact ⟨N, hP N hN, hbody⟩

theorem Binds.mono {P P' : UInt32 → Prop} {k : Rpcc} (hk : Binds P k) (hP : ∀ N, P N → P' N) :
    Binds P' k := by
  refine ⟨hk.registered, hk.unbound, hk.bound, hk.packed, hk.binding, fun id ca hca hp hres => ?_⟩
  obtain ⟨N,hN,hun⟩ := hk.answered id ca hca hp hres
  exact ⟨N, hP N hN, hun⟩

/-- No step of a client forgets a call or repacks its header. -/
structure Rpcc.Keeps (k k' : Rpcc) : Prop where
  cltNonce : k'.cltNonce = k.cltNonce
  callers : ∀ id ca, k.caller id = some ca → ∃ ca', k'.caller id = some ca' ∧ ca'.req = ca.req

theorem keeps_refl (k : Rpcc) : k.Keeps k := ⟨rfl, fun _ ca h => ⟨ca, h, rfl⟩⟩

theorem keeps_of_update {k k' : Rpcc} {j : ℕ} {new : Caller} (hn : k'.cltNonce = k.cltNonce)
    (hc : k'.caller = Function.update k.caller j (some new))
    (hj : ∀ cj, k.caller j = some cj → new.req = cj.req) : k.Keeps k' := by
  refine ⟨hn, fun id ca hca => ?_⟩
  rw [hc]
  by_cases hid : id = j
  · subst hid
    exact ⟨new, Function.update_self _ _ _, hj ca hca⟩
  · exact ⟨ca, (Function.update_of_ne hid _ _).trans hca, rfl⟩

theorem start_keeps {k k' : Rpcc} {j : ℕ} {proc : Int32} (h : k.start j proc = some k') :
    k.Keeps k' := by
  obtain ⟨hj,rfl | ⟨-,rfl⟩⟩ := Rpcc.start_cases h
  · exact keeps_refl k'
  · refine keeps_of_update rfl rfl (fun cj hcj => ?_)
    rw [hj] at hcj
    cases hcj

theorem finish_keeps {k k' : Rpcc} {j : ℕ} (h : k.finish j = some k') : k.Keeps k' := by
  obtain ⟨cj,hcj,-,rfl⟩ := Rpcc.finish_cases h
  refine keeps_of_update rfl rfl (fun ca hca => ?_)
  rw [Option.some.inj (hcj.symm.trans hca)]

theorem bind_keeps {k k' : Rpcc} {j : ℕ} (h : k.bind j = some k') : k.Keeps k' := by
  obtain ⟨cj,r,u,hcj,-,-,-,-,-,rfl⟩ := Rpcc.bind_cases h
  refine keeps_of_update rfl rfl (fun ca hca => ?_)
  rw [Option.some.inj (hcj.symm.trans hca)]

theorem gotPdu_keeps {k : Rpcc} (hreg : Registered k) (b : Bytes) : k.Keeps (k.gotPdu b) := by
  rcases k.gotPdu_cases b with ⟨-,heq⟩ | ⟨h,body,-,⟨-,heq⟩ | ⟨j,hj,heq⟩⟩
  · rw [heq]
    exact keeps_refl k
  · rw [heq]
    exact ⟨rfl, (keeps_refl k).callers⟩
  · obtain ⟨cj,hcj,-,-⟩ := hreg _ j hj
    rw [heq, hcj]
    refine keeps_of_update rfl rfl (fun ca hca => ?_)
    rw [← Option.some.inj (hcj.symm.trans hca)]
    exact (takeReply_frame cj h body).2.1

/-! The whole cluster. -/

/-- An instance with this nonce has been started. -/
def Cluster.Started {σ : Type} (s : Cluster σ) (N : UInt32) : Prop :=
  N ≠ 0 ∧ (s.instances N).isSome

/-- Client `c` has sent the request. -/
def Cluster.Sent {σ : Type} (s : Cluster σ) (c : ClientId) (r : ReqHeader) : Prop :=
  (c, r) ∈ s.requests

/-- What an instance holds: its handlers run requests it does not refuse, and its stored replies
answer requests of their clients. -/
structure Instance.Serves {σ : Type} (i : Instance σ) (P : UInt32 → Prop)
    (sent : ClientId → ReqHeader → Prop) : Prop where
  jobs : ∀ c r, (c, r) ∈ i.jobs → sent c r ∧ ¬ i.server.refuses r
  stored : Stores (fun n _ b => ∀ c : ClientId, c.cltNonce.toNat = n → Answers P (sent c) b)
    i.server.tables

structure RestartInv {σ : Type} (s : Cluster σ) : Prop where
  nonce : ∀ c, (s.clients c).cltNonce = c.cltNonce
  clients : ∀ c, Binds s.Started (s.clients c)
  requests : ∀ c r, s.Sent c r → ∃ id ca, (s.clients c).caller id = some ca ∧ ca.req = r
  instances : ∀ N i, s.instances N = some i →
    N ≠ 0 ∧ i.server.nonce = N ∧ i.Serves s.Started s.Sent
  replies : ∀ c b, (c, b) ∈ s.replies → Answers s.Started (s.Sent c) b

theorem Instance.Serves.mono {σ : Type} {i : Instance σ} {P P' : UInt32 → Prop}
    {sent sent' : ClientId → ReqHeader → Prop} (h : i.Serves P sent) (hP : ∀ N, P N → P' N)
    (hsent : ∀ c r, sent c r → sent' c r) : i.Serves P' sent' := by
  refine ⟨fun c r hr => ⟨hsent c r (h.jobs c r hr).1, (h.jobs c r hr).2⟩, ?_⟩
  exact h.stored.mono (fun n x b hb c hc => (hb c hc).mono hP (hsent c))

section Steps
variable {σ : Type} {s : Cluster σ}

theorem RestartInv.setClient (hs : RestartInv s) {c : ClientId} {k : Rpcc}
    (hkeep : (s.clients c).Keeps k) (hk : Binds s.Started k) : RestartInv (s.setClient c k) := by
  have hat : ∀ d, (s.setClient c k).clients d = if d = c then k else s.clients d := by
    intro d
    exact Function.update_apply s.clients c k d
  refine ⟨fun d => ?_, fun d => ?_, fun d r hr => ?_, hs.instances, hs.replies⟩
  · rw [hat]
    split_ifs with hd
    · rw [hkeep.cltNonce, hd]
      exact hs.nonce c
    · exact hs.nonce d
  · rw [hat]
    split_ifs with hd
    · exact hk
    · exact hs.clients d
  · obtain ⟨id,ca,hca,hreq⟩ := hs.requests d r hr
    rw [hat]
    split_ifs with hd
    · subst hd
      obtain ⟨ca',hca',hreq'⟩ := hkeep.callers id ca hca
      exact ⟨id, ca', hca', hreq'.trans hreq⟩
    · exact ⟨id, ca, hca, hreq⟩

/-- More instances and more requests, with everything else as before. -/
theorem RestartInv.setInstance (hs : RestartInv s) {N : UInt32} {i : Instance σ} (hN : N ≠ 0)
    (hnonce : i.server.nonce = N)
    (hi : i.Serves (s.setInstance N i).Started (s.setInstance N i).Sent) :
    RestartInv (s.setInstance N i) := by
  have hstarted : ∀ M, s.Started M → (s.setInstance N i).Started M := by
    intro M hM
    refine ⟨hM.1, ?_⟩
    change (Function.update s.instances N (some i) M).isSome = true
    rw [Function.update_apply]
    split_ifs
    · rfl
    · exact hM.2
  refine ⟨hs.nonce, fun c => (hs.clients c).mono hstarted, hs.requests, fun M m hm => ?_,
    fun c b hb => (hs.replies c b hb).mono hstarted (fun _ h => h)⟩
  rcases update_eq_some hm with ⟨rfl,hnew⟩ | ⟨-,hold⟩
  · obtain rfl := Option.some.inj hnew
    exact ⟨hN, hnonce, hi⟩
  · obtain ⟨h0,hn,hserves⟩ := hs.instances M m hold
    exact ⟨h0, hn, hserves.mono hstarted (fun _ _ h => h)⟩

theorem RestartInv.sends (hs : RestartInv s) {c : ClientId} {out : List Bytes}
    (hout : ∀ b ∈ out, Answers s.Started (s.Sent c) b) : RestartInv (s.sends c out) := by
  refine ⟨hs.nonce, hs.clients, hs.requests, hs.instances, fun d b hb => ?_⟩
  rcases List.mem_append.mp hb with hb | hb
  · obtain ⟨b',hb',heq⟩ := List.mem_map.mp hb
    obtain ⟨rfl,rfl⟩ := Prod.mk.inj heq
    exact hout b' hb'
  · exact hs.replies d b hb

/-- `dispatch` starts the handlers of requests it does not refuse. -/
theorem runs_not_refuses {srv : Server} {r : ReqHeader} (h : srv.runs r = true) :
    ¬ srv.refuses r := by
  intro href
  simp [Server.runs, href] at h

theorem dispatch_nonce {srv srv' : Server} {r : ReqHeader} {out : List Bytes}
    (h : srv.dispatch r = some (srv', out)) : srv'.nonce = srv.nonce := by
  rcases Server.dispatch_cases h with ⟨-,rfl,-⟩ | ⟨-,t,v,-,rfl,-⟩
  · rfl
  · rfl

theorem reply_nonce {srv srv' : Server} {r : ReqHeader} {ret : Int32} {body b : Bytes}
    (h : srv.reply r ret body = some (srv', b)) : srv'.nonce = srv.nonce := by
  obtain ⟨-,-,-,t,rfl,-⟩ := Server.reply_cases h
  rfl

end Steps

instance {σ : Type} (s : Cluster σ) (N : UInt32) (c : ClientId) (h : ReqHeader) :
    Decidable (∃ i ∈ s.instances N, (c, h) ∈ i.jobs) :=
  decidable_of_iff ((s.instances N).any (fun i => (c, h) ∈ i.jobs) = true)
    (by simp [Option.any_eq_true])

end DisconnectedYfs.RPC
