import DisconnectedYfs.RPCRemoteObject

/-! A remote call is a local one. The methods run one after another with the arguments that were
passed, the method of a call runs at most once while the call waits, and what the call returns is
what its method returned when it ran first. A method may run again once its call has its reply or
has given up, as a late copy of a request can pass for a new one. -/
namespace DisconnectedYfs.RPC
open TraceSystem
attribute [local irreducible] parseReply parseReq marshalled

/-- The methods, run one after another on the object, give these results. -/
inductive Replays {σ ω : Type} (procs : Int32 → Option (Method σ ω)) (obj : σ) :
    List (Execution ω) → σ → Prop
  | nil : Replays procs obj [] obj
  | snoc {log st st' x f r} (h : Replays procs obj log st) (hf : procs x.req.proc = some f)
      (hm : f.meth x.args x.env st = some ((x.ret, r), st')) (hr : x.res = ⟨f.res, r⟩) :
      Replays procs obj (log ++ [x]) st'

/-- Any entry of a log is a run of its method on what the entries before it leave. -/
theorem Replays.split {σ ω : Type} {procs : Int32 → Option (Method σ ω)} {obj st : σ}
    {log₁ log₂ : List (Execution ω)} {x : Execution ω}
    (h : Replays procs obj (log₁ ++ x :: log₂) st) :
    ∃ st₁ st₂ f r, Replays procs obj log₁ st₁ ∧ procs x.req.proc = some f ∧
      f.meth x.args x.env st₁ = some ((x.ret, r), st₂) ∧ x.res = ⟨f.res, r⟩ := by
  generalize hl : log₁ ++ x :: log₂ = log at h
  induction h generalizing log₂ with
  | nil => simp at hl
  | @snoc log st st' y f r h hf hm hr ih =>
    rcases List.eq_nil_or_concat log₂ with rfl | ⟨l,z,rfl⟩
    · obtain ⟨rfl,hxy⟩ := List.append_inj' hl rfl
      cases hxy
      exact ⟨st, st', f, r, h, hf, hm, hr⟩
    · rw [List.concat_eq_append, ← List.cons_append, ← List.append_assoc] at hl
      exact ih (List.append_inj_left' hl rfl)

/-- The method returned `ret`, and its result was marshalled into `body`. -/
def Execution.Gives {ω : Type} (x : Execution ω) (ret : Int32) (body : Bytes) : Prop :=
  x.ret = ret ∧ body = x.res.1.encode x.res.2 ∧ rpcHeaderSz+body.length < 2^31

/-- The reply of the call is from the first time its method ran. -/
def Answered {ω : Type} (log : List (Execution ω)) (ca : Caller) : Prop :=
  ∃ log₁ x log₂, log = log₁ ++ x :: log₂ ∧ x.req = ca.req ∧ x.Gives ca.intret ca.un ∧
    ∀ y ∈ log₁, y.req ≠ ca.req

/-- The same call, later: a reply that it has stays. -/
structure Caller.Later (ca ca' : Caller) : Prop where
  req : ca'.req = ca.req
  reply : ca.done = true → ca'.done = true ∧ ca'.intret = ca.intret ∧ ca'.un = ca.un
  returned : ca.returned = true → ca'.returned = true

/-- Arguments of the types that the called method expects. -/
def RemoteEvent.Typed {σ ω : Type} (procs : Int32 → Option (Method σ ω)) : RemoteEvent ω → Prop
  | .start _ _ proc args => ∀ f, procs proc = some f → args.map Sigma.fst = f.args
  | _ => True

/-- How often the method of a request has run, or is about to. -/
def Remote.runs {σ ω : Type} (s : Remote σ) (log : List (Execution ω)) (h : ReqHeader) : ℕ :=
  log.countP (fun x => x.req = h)+s.jobs.countP (fun j => j.1 = h)

section client
variable {ω : Type} {k k' : Rpcc} {ca ca' : Caller} {id j : ℕ} {b : Bytes}
    {log : List (Execution ω)}

theorem Caller.Later.refl (ca : Caller) : ca.Later ca := ⟨rfl, fun h => ⟨h, rfl, rfl⟩, fun h => h⟩

/-- A client step that changes one call leaves all of them the calls they were. -/
theorem later_of_update {new : Caller} (hj : k.caller j = some ca) (hl : ca.Later new)
    (h : Function.update k.caller j (some new) id = some ca') :
    ∃ ca₀, k.caller id = some ca₀ ∧ ca₀.Later ca' ∧ (ca' = ca₀ ∨ ca₀ = ca ∧ ca' = new) := by
  rcases caller_update h with ⟨rfl,rfl⟩ | ⟨-,h⟩
  · exact ⟨ca, hj, hl, Or.inr ⟨rfl, rfl⟩⟩
  · exact ⟨ca', h, .refl ca', Or.inl rfl⟩

theorem takeReply_later (ca : Caller) (h : ReplyHeader) (body : Bytes) :
    ca.Later (ca.takeReply h body) := by
  unfold Caller.takeReply
  split_ifs with hd
  · exact .refl ca
  · exact ⟨rfl, fun h => absurd h hd, fun h => h⟩

/-- A call gets its reply from a PDU with its xid that comes while it waits. -/
theorem gotPdu_later (hk : ClientInv k) (h : (k.gotPdu b).caller id = some ca') :
    ∃ ca, k.caller id = some ca ∧ ca.Later ca' ∧ (ca'.done = true → ca.done = true ∨
      ca.returned = false ∧ ∃ r, parseReply b = some (r, ca'.un) ∧ r.xid.toUInt32 = ca.xid ∧
        r.ret = ca'.intret) := by
  rcases k.gotPdu_cases b with ⟨-,heq⟩ | ⟨r,body,hp,⟨-,heq⟩ | ⟨j,hj,heq⟩⟩
  · rw [heq] at h
    exact ⟨ca', h, .refl ca', Or.inl⟩
  · rw [heq] at h
    exact ⟨ca', h, .refl ca', Or.inl⟩
  · obtain ⟨cj,hcj,hx,hret⟩ := hk.calls _ j hj
    rw [heq, hcj] at h
    obtain ⟨ca,hca,hl,rfl | ⟨rfl,rfl⟩⟩ := later_of_update hcj (takeReply_later cj r body) h
    · exact ⟨ca', hca, hl, Or.inl⟩
    · refine ⟨ca, hca, hl, fun _ => ?_⟩
      by_cases hd : ca.done = true
      · exact Or.inl hd
      · have htake : ca.takeReply r body = { ca with un := body, intret := r.ret, done := true } :=
          if_neg hd
        rw [htake]
        exact Or.inr ⟨hret, r, hp, hx.symm, rfl⟩

theorem finish_later (hk : k.finish j = some k') (h : k'.caller id = some ca') :
    ∃ ca, k.caller id = some ca ∧ ca.Later ca' ∧ (ca'.done = true → ca.done = true) := by
  obtain ⟨cj,hcj,-,rfl⟩ := Rpcc.finish_cases hk
  have hl : cj.Later { cj with returned := true } := ⟨rfl, fun h => ⟨h, rfl, rfl⟩, fun _ => rfl⟩
  obtain ⟨ca,hca,hl,rfl | ⟨rfl,rfl⟩⟩ := later_of_update hcj hl h
  · exact ⟨ca', hca, hl, fun h => h⟩
  · exact ⟨ca, hca, hl, fun h => h⟩

theorem bind_later (hk : k.bind j = some k') (h : k'.caller id = some ca') :
    ∃ ca, k.caller id = some ca ∧ ca.Later ca' ∧ (ca'.done = true → ca.done = true) := by
  obtain ⟨cj,r,u,hcj,-,-,-,-,-,rfl⟩ := Rpcc.bind_cases hk
  have hl : cj.Later { cj with bound := true } := ⟨rfl, fun h => ⟨h, rfl, rfl⟩, fun h => h⟩
  obtain ⟨ca,hca,hl,rfl | ⟨rfl,rfl⟩⟩ := later_of_update hcj hl h
  · exact ⟨ca', hca, hl, fun h => h⟩
  · exact ⟨ca, hca, hl, fun h => h⟩

theorem Answered.append (h : Answered log ca) (l : List (Execution ω)) :
    Answered (log ++ l) ca := by
  obtain ⟨log₁,x,log₂,rfl,hx⟩ := h
  exact ⟨log₁, x, log₂ ++ l, by simp, hx⟩

theorem Answered.later (h : Answered log ca) (hl : ca.Later ca') (hd : ca.done = true) :
    Answered log ca' := by
  obtain ⟨-,hret,hun⟩ := hl.reply hd
  obtain ⟨log₁,x,log₂,hlog,hx,hg,hfirst⟩ := h
  refine ⟨log₁, x, log₂, hlog, ?_, ?_, ?_⟩
  · rw [hl.req]
    exact hx
  · rw [hret, hun]
    exact hg
  · rw [hl.req]
    exact hfirst

/-- What ran once ran first then. -/
theorem answered_of_once {x : Execution ω} (hx : x ∈ log) (hreq : x.req = ca.req)
    (hg : x.Gives ca.intret ca.un) (honce : log.countP (fun y => y.req = ca.req) ≤ 1) :
    Answered log ca := by
  obtain ⟨log₁,log₂,rfl⟩ := List.append_of_mem hx
  refine ⟨log₁, x, log₂, rfl, hreq, hg, fun y hy heq => ?_⟩
  have hpos : 0 < log₁.countP (fun y => y.req = ca.req) :=
    List.countP_pos_iff.mpr ⟨y, hy, by simpa using heq⟩
  rw [List.countP_append, List.countP_cons_of_pos (by simpa using hreq)] at honce
  omega

end client

section
variable {σ ω : Type} {methods : Int32 → Option (Method σ ω)} {n N : UInt32} {obj : σ}
  {s s' : Remote σ} {e : RemoteEvent ω} {log : List (Execution ω)} {id : ℕ} {ca : Caller}
  {h : ReqHeader} {b : Bytes}

structure LocalInv (methods : Int32 → Option (Method σ ω)) (N : UInt32) (obj : σ) (s : Remote σ)
    (log : List (Execution ω)) : Prop where
  sound : s.Sound
  nonce : s.server.nonce = N
  typed : ∀ c id ca, (s.clients c).caller id = some ca →
    ∀ f, handler N methods ca.req.proc = some f → (s.args c id).map Sigma.fst = f.args
  replays : Replays (handler N methods) obj log s.obj
  made : ∀ x ∈ log, ∃ c id ca, (s.clients c).caller id = some ca ∧ x.req = ca.req ∧
    x.args = s.args c id
  once : ∀ c id ca, c ≠ 0 → (s.clients c).caller id = some ca → ca.done = false →
    ca.returned = false →
    s.runs log ca.req ≤ 1 ∧ (s.runs log ca.req ≠ 0 → (s.server.only c).Remembers ca.req)
  outs : ∀ h ret body, (h, ret, body) ∈ s.outs → ∃ x ∈ log, x.req = h ∧ x.Gives ret body
  answered : ∀ c id ca, c ≠ 0 → (s.clients c).caller id = some ca → ca.done = true →
    0 ≤ ca.intret → Answered log ca

/-- A job is a request that one of the calls has made. -/
theorem Remote.Sound.job (hs : s.Sound) (hj : (h, b) ∈ s.jobs) :
    ∃ c id ca u, (s.clients c).caller id = some ca ∧ h = ca.req ∧ parseReq b = some (h, u) ∧
      Holds u (encodeAll (s.args c id)) := by
  obtain ⟨hb,u,hp⟩ := hs.jobs h b hj
  obtain ⟨c,id,ca,hca,rfl⟩ := hs.packets b hb
  obtain ⟨hbody,hlt⟩ := hs.bodies c id ca hca
  obtain ⟨u',hp',hu,-⟩ := parseReq_reqBuf ca.req (s.bodies c id) hlt
  rw [hp] at hp'
  cases hp'
  exact ⟨c, id, ca, u, hca, rfl, hp, hbody ▸ hu⟩

/-- A request that no call has made has not run. -/
theorem LocalInv.unmade (hs : LocalInv methods N obj s log)
    (hno : ∀ c id ca, (s.clients c).caller id = some ca → ca.req ≠ h) : s.runs log h = 0 := by
  unfold Remote.runs
  rw [Nat.add_eq_zero_iff, List.countP_eq_zero, List.countP_eq_zero]
  constructor
  · intro x hx heq
    obtain ⟨c,id,ca,hca,hreq,-⟩ := hs.made x hx
    exact hno c id ca hca (hreq.symm.trans (by simpa using heq))
  · rintro ⟨h',b⟩ hj heq
    obtain ⟨c,id,ca,-,hca,hreq,-⟩ := hs.sound.job hj
    exact hno c id ca hca (hreq.symm.trans (by simpa using heq))

/-- Steps of the clients that make no call. -/
theorem LocalInv.clients (hs : LocalInv methods N obj s log) {ks : UInt32 → Rpcc}
    (hback : ∀ c id ca', (ks c).caller id = some ca' → ∃ ca, (s.clients c).caller id = some ca ∧
      ca.Later ca' ∧ (ca'.done = true → ca.done = true ∨
        (c ≠ 0 → 0 ≤ ca'.intret → Answered log ca')))
    (hkeeps : ∀ c, (s.clients c).Keeps (ks c)) :
    LocalInv methods N obj { s with clients := ks } log := by
  refine ⟨⟨fun c => ?_, fun c id ca' hca' => ?_, fun c id ca' hca' => ?_, fun b hb => ?_,
    hs.sound.jobs⟩, hs.nonce, fun c id ca' hca' => ?_, hs.replays, fun x hx => ?_,
    fun c id ca' hc hca' hd hr => ?_, hs.outs, fun c id ca' hc hca' hd hpos => ?_⟩
  · exact (hkeeps c).cltNonce.trans (hs.sound.nonces c)
  · obtain ⟨ca,hca,hl,-⟩ := hback c id ca' hca'
    rw [hl.req]
    exact hs.sound.packed c id ca hca
  · obtain ⟨ca,hca,-,-⟩ := hback c id ca' hca'
    exact hs.sound.bodies c id ca hca
  · obtain ⟨c,id,ca,hca,rfl⟩ := hs.sound.packets b hb
    obtain ⟨ca',hca',hreq⟩ := (hkeeps c).callers id ca hca
    exact ⟨c, id, ca', hca', by rw [hreq]⟩
  · obtain ⟨ca,hca,hl,-⟩ := hback c id ca' hca'
    rw [hl.req]
    exact hs.typed c id ca hca
  · obtain ⟨c,id,ca,hca,hreq,hargs⟩ := hs.made x hx
    obtain ⟨ca',hca',hreq'⟩ := (hkeeps c).callers id ca hca
    exact ⟨c, id, ca', hca', hreq.trans hreq'.symm, hargs⟩
  · obtain ⟨ca,hca,hl,-⟩ := hback c id ca' hca'
    have hd₀ : ca.done = false := by
      by_contra hne
      rw [(hl.reply (by simpa using hne)).1] at hd
      cases hd
    have hr₀ : ca.returned = false := by
      by_contra hne
      rw [hl.returned (by simpa using hne)] at hr
      cases hr
    rw [hl.req]
    exact hs.once c id ca hc hca hd₀ hr₀
  · obtain ⟨ca,hca,hl,hnew⟩ := hback c id ca' hca'
    rcases hnew hd with hd₀ | hans
    · have hret := (hl.reply hd₀).2.1
      exact (hs.answered c id ca hc hca hd₀ (hret ▸ hpos)).later hl hd₀
    · exact hans hc hpos

/-- A client that keeps its calls may take the place of what it was. -/
theorem keeps_update {ks : UInt32 → Rpcc} {c : UInt32} {k : Rpcc} (hk : (ks c).Keeps k)
    (d : UInt32) :
    (ks d).Keeps (Function.update ks c k d) := by
  by_cases hd : d = c
  · subst hd
    rw [Function.update_self]
    exact hk
  · rw [Function.update_of_ne hd]
    exact keeps_refl _

/-- A step of one client. -/
theorem LocalInv.setClient (hs : LocalInv methods N obj s log) {c : UInt32} {k : Rpcc}
    (hback : ∀ id ca', k.caller id = some ca' → ∃ ca, (s.clients c).caller id = some ca ∧
      ca.Later ca' ∧ (ca'.done = true → ca.done = true ∨
        (c ≠ 0 → 0 ≤ ca'.intret → Answered log ca')))
    (hkeeps : (s.clients c).Keeps k) : LocalInv methods N obj (s.setClient c k) log := by
  refine hs.clients (fun d id ca' hca' => ?_) (keeps_update hkeeps)
  by_cases hd : d = c
  · subst hd
    rw [Function.update_self] at hca'
    exact hback id ca' hca'
  · rw [Function.update_of_ne hd] at hca'
    exact ⟨ca', hca', .refl ca', Or.inl⟩

/-- A new call has its arguments with it. -/
theorem given_new (s : Remote σ) (c : UInt32) (id : ℕ) (args : List Value) (body : Bytes) :
    (s.given c id args body).args c id = args ∧ (s.given c id args body).bodies c id = body := by
  simp only [Remote.given, Function.update_self, and_self]

/-- The calls that were there before keep theirs. -/
theorem given_old {c d : UInt32} {j : ℕ} {cj : Caller} {args : List Value} {body : Bytes}
    (hid : (s.clients c).caller id = none) (hcj : (s.clients d).caller j = some cj) :
    (s.given c id args body).args d j = s.args d j ∧
      (s.given c id args body).bodies d j = s.bodies d j := by
  unfold Remote.given
  dsimp only
  by_cases hd : d = c
  · subst hd
    have hj : j ≠ id := by
      rintro rfl
      rw [hid] at hcj
      cases hcj
    rw [Function.update_self, Function.update_self, Function.update_of_ne hj,
      Function.update_of_ne hj]
    exact ⟨rfl, rfl⟩
  · rw [Function.update_of_ne hd, Function.update_of_ne hd]
    exact ⟨rfl, rfl⟩

/-- A call is one of those that were there, or the new one. -/
theorem start_old {ks : UInt32 → Rpcc} {c d : UInt32} {proc : Int32} {k : Rpcc}
    {j : ℕ} {cj : Caller}
    (hk : (ks c).start id proc = some k) (hcj : (Function.update ks c k d).caller j = some cj) :
    (ks d).caller j = some cj ∨ d = c ∧ j = id ∧ cj = (ks c).newCaller proc := by
  by_cases hd : d = c
  · subst hd
    rw [Function.update_self] at hcj
    rcases (Rpcc.start_cases hk).2 with rfl | ⟨-,rfl⟩
    · exact Or.inl hcj
    · rcases caller_update hcj with ⟨rfl,rfl⟩ | ⟨-,hcj⟩
      · exact Or.inr ⟨rfl, rfl, rfl⟩
      · exact Or.inl hcj
  · rw [Function.update_of_ne hd] at hcj
    exact Or.inl hcj

/-- The request of a new call has not run: its xid is new. -/
theorem LocalInv.unused (hs : LocalInv methods N obj s log) {c : UInt32}
    (hlive : LiveInv (s.view c))
    (proc : Int32) : s.runs log ((s.clients c).newCaller proc).req = 0 := by
  apply hs.unmade
  intro a i ci hci heq
  obtain rfl : a = c := by
    rw [← hs.sound.packed a i ci hci, heq]
    exact hs.sound.nonces c
  have hx := (hlive.client.packed i ci hci).xid
  rw [heq] at hx
  have hlt : ci.xid < (s.clients a).xid := (hlive.client.fresh i ci hci).2
  rw [← hx] at hlt
  exact absurd hlt (UInt32.lt_irrefl _)

theorem LocalInv.start (hs : LocalInv methods N obj s log) {c : UInt32} (hlive : LiveInv (s.view c))
    {proc : Int32} {args : List Value} {body : Bytes} {k : Rpcc} (hm : marshalled args = some body)
    (hk : (s.clients c).start id proc = some k)
    (htyped : ∀ f, handler N methods proc = some f → args.map Sigma.fst = f.args) :
    LocalInv methods N obj ((s.given c id args body).setClient c k) log := by
  have hid : (s.clients c).caller id = none := (Rpcc.start_cases hk).1
  have hkeeps := keeps_update (start_keeps hk)
  refine ⟨⟨fun d => (hkeeps d).cltNonce.trans (hs.sound.nonces d), fun d j cj hcj => ?_,
    fun d j cj hcj => ?_, fun b hb => ?_, hs.sound.jobs⟩, hs.nonce,
      fun d j cj hcj => ?_, hs.replays,
    fun x hx => ?_, fun d j cj hd0 hcj hd hr => ?_, hs.outs, fun d j cj hd0 hcj hd => ?_⟩
  · rcases start_old hk hcj with hcj | ⟨rfl,rfl,rfl⟩
    · exact hs.sound.packed d j cj hcj
    · exact hs.sound.nonces d
  · rcases start_old hk hcj with hcj | ⟨rfl,rfl,rfl⟩
    · obtain ⟨hargs,hbodies⟩ := given_old hid hcj
      change (s.given c id args body).bodies d j = encodeAll ((s.given c id args body).args d j) ∧
        rpcHeaderSz+((s.given c id args body).bodies d j).length < 2^31
      rw [hargs, hbodies]
      exact hs.sound.bodies d j cj hcj
    · change (s.given d j args body).bodies d j = encodeAll ((s.given d j args body).args d j) ∧
        rpcHeaderSz+((s.given d j args body).bodies d j).length < 2^31
      rw [(given_new ..).1, (given_new ..).2]
      exact marshalled_eq hm
  · obtain ⟨d,j,cj,hcj,rfl⟩ := hs.sound.packets b hb
    obtain ⟨cj',hcj',hreq⟩ := (hkeeps d).callers j cj hcj
    refine ⟨d, j, cj', hcj', ?_⟩
    change _ = reqBuf cj'.req ((s.given c id args body).bodies d j)
    rw [(given_old hid hcj).2, hreq]
  · change ∀ f : Method σ ω, _ → ((s.given c id args body).args d j).map Sigma.fst = f.args
    rcases start_old hk hcj with hcj | ⟨rfl,rfl,rfl⟩
    · rw [(given_old hid hcj).1]
      exact hs.typed d j cj hcj
    · rw [(given_new ..).1]
      exact htyped
  · obtain ⟨d,j,cj,hcj,hreq,hargs⟩ := hs.made x hx
    obtain ⟨cj',hcj',hreq'⟩ := (hkeeps d).callers j cj hcj
    refine ⟨d, j, cj', hcj', hreq.trans hreq'.symm, ?_⟩
    change x.args = (s.given c id args body).args d j
    rw [(given_old hid hcj).1, hargs]
  · rcases start_old hk hcj with hcj | ⟨rfl,rfl,rfl⟩
    · exact hs.once d j cj hd0 hcj hd hr
    · have hzero := hs.unused hlive proc
      change s.runs log ((s.clients d).newCaller proc).req ≤ 1 ∧
        (s.runs log ((s.clients d).newCaller proc).req ≠ 0 → _)
      rw [hzero]
      exact ⟨Nat.zero_le _, fun h => absurd rfl h⟩
  · rcases start_old hk hcj with hcj | ⟨rfl,rfl,rfl⟩
    · exact hs.answered d j cj hd0 hcj hd
    · cases hd

/-- The entry of a call that waits is not acknowledged by what is on the way. -/
theorem LiveInv.unacknowledged {t : Net} (hlive : LiveInv t) (hh : h ∈ t.requests)
    (hca : t.client.caller id = some ca) (hd : ca.done = false) (hr : ca.returned = false) :
    h.xidRep.toUInt32 < ca.req.xid.toUInt32 := by
  obtain ⟨-,hle,-,-⟩ := hlive.packed hh
  rw [(hlive.client.packed id ca hca).xid]
  by_contra hge
  have hfront : ca.xid ≤ t.client.front := UInt32.le_trans (UInt32.not_lt.mp hge) hle
  rcases (hlive.client.front_reported hfront).2 id ca hca rfl with h | h
  · rw [hd] at h
    cases h
  · rw [hr] at h
    cases h

/-- `dispatch` keeps the entry of a call that waits, and makes one when it starts the handler, which
it does only without one. -/
theorem dispatch_once {t : Net} {srv : Server} {out : List Bytes} (hlive : LiveInv t)
    (hn : t.client.cltNonce ≠ 0) (hh : h ∈ t.requests)
    (hdis : t.server.dispatch h = some (srv, out)) (hca : t.client.caller id = some ca)
    (hd : ca.done = false) (hr : ca.returned = false) :
    (t.server.Remembers ca.req → srv.Remembers ca.req) ∧
    (t.server.runs h = true → h = ca.req → ¬ t.server.Remembers ca.req ∧ srv.Remembers ca.req) := by
  have hnonce : h.cltNonce ≠ 0 := by
    rw [(hlive.packed hh).2.2.1]
    exact hn
  rcases Server.dispatch_cases hdis with ⟨href,rfl,-⟩ | ⟨-,tab,v,hv,rfl,-⟩
  · refine ⟨fun h => h, fun hruns => ?_⟩
    exact absurd href (runs_not_refuses hruns)
  · -- whether handlers are running plays no part in the tables
    have hw : WindowInv { t.server with running := [] } := ⟨hlive.ordered, fun _ h => by cases h⟩
    refine ⟨fun hrem => ?_, fun hruns heq => ?_⟩
    · exact check_remembers hw hnonce hv hrem
        (fun _ => hlive.unacknowledged hh hca hd hr)
    · have hnew : v = .new := by
        simp only [Server.runs, hv, Option.any_some, Bool.and_eq_true, beq_iff_eq] at hruns
        exact hruns.2
      subst heq
      rw [hnew] at hv
      refine ⟨fun hrem => ?_, check_new_remembers hw hnonce hv⟩
      have hspec := check_spec (hlive.ordered _) (check_nonzero hnonce hv)
      rcases hspec.verdict with ⟨-,hf,-⟩ | ⟨-,hiff,-⟩
      · cases hf
      · exact hiff.mp rfl hrem

theorem LocalInv.deliver (hs : LocalInv methods N obj s log) {u : Unmarshall} {srv : Server}
    {out : List Bytes} (hlive : LiveInv (s.view h.cltNonce)) (hb : b ∈ s.packets)
    (hp : parseReq b = some (h, u)) (hd : s.server.dispatch h = some (srv, out)) :
    LocalInv methods N obj { s with
      server := srv, replies := out.map (fun r => (h.cltNonce, r)) ++ s.replies,
      jobs := if s.server.runs h then (h, b) :: s.jobs else s.jobs } log := by
  refine ⟨⟨hs.sound.nonces, hs.sound.packed, hs.sound.bodies, hs.sound.packets, fun h' b' hj => ?_⟩,
    (dispatch_nonce hd).trans hs.nonce, hs.typed, hs.replays, hs.made,
    fun c id ca hc hca hdone hret => ?_, hs.outs, hs.answered⟩
  · dsimp only at hj
    split_ifs at hj
    · rcases List.mem_cons.mp hj with heq | hj
      · cases heq
        exact ⟨hb, u, hp⟩
      · exact hs.sound.jobs h' b' hj
    · exact hs.sound.jobs h' b' hj
  · obtain ⟨hle,hrem⟩ := hs.once c id ca hc hca hdone hret
    unfold Remote.runs at hle hrem ⊢
    dsimp only
    by_cases hsame : h.cltNonce = c
    · subst hsame
      have hreq : h ∈ (s.view h.cltNonce).requests :=
        List.mem_filterMap.mpr ⟨b, hb, by simp [hp]⟩
      have hn : (s.view h.cltNonce).client.cltNonce ≠ 0 := by
        change (s.clients h.cltNonce).cltNonce ≠ 0
        rw [hs.sound.nonces]
        exact hc
      obtain ⟨hkeep,hfresh⟩ := dispatch_once hlive hn hreq (dispatch_view hd) hca hdone hret
      by_cases hruns : s.server.runs h = true
      · rw [if_pos hruns, List.countP_cons]
        by_cases heq : h = ca.req
        · obtain ⟨hnot,hnow⟩ := hfresh (runs_view hruns) heq
          rw [if_pos (by simpa using heq)]
          refine ⟨?_, fun _ => hnow⟩
          by_contra hgt
          exact hnot (hrem (by omega))
        · rw [if_neg (by simpa using heq)]
          exact ⟨hle, fun hne => hkeep (hrem hne)⟩
      · rw [if_neg hruns]
        exact ⟨hle, fun hne => hkeep (hrem hne)⟩
    · -- a request of another client
      have hne : h ≠ ca.req := by
        rintro rfl
        exact hsame (hs.sound.packed c id ca hca)
      have hcount : (if s.server.runs h then (h, b) :: s.jobs else s.jobs).countP
          (fun j => j.1 = ca.req) = s.jobs.countP (fun j => j.1 = ca.req) := by
        split_ifs
        · rw [List.countP_cons_of_neg (by simpa using hne)]
        · rfl
      rw [hcount, dispatch_view_other hsame hd]
      exact ⟨hle, hrem⟩

/-- A method that runs becomes an entry of the log. -/
theorem execution_eq {f : Method σ ω} {w : ω} {h' : ReqHeader} {u : Unmarshall}
    {ret : Int32} {st : σ}
    {r : f.res.Val} (hf : handler s.server.nonce methods h.proc = some f)
    (hp : parseReq b = some (h', u))
    (hmeth : f.meth (shrAll f.args u).1 w s.obj = some ((ret, r), st)) :
    s.execution methods h b w = some ⟨h, (shrAll f.args u).1, w, ret, ⟨f.res, r⟩⟩ := by
  simp [Remote.execution, Remote.serves, hf, hp, hmeth]

/-- The run moves from the jobs to the log. -/
theorem runs_of_erase {x : Execution ω} {r : ReqHeader} (hj : (h, b) ∈ s.jobs)
    (hjobs : s'.jobs = s.jobs.erase (h, b)) (hx : x.req = h) :
    s'.runs (log ++ [x]) r = s.runs log r := by
  have hcount := (List.perm_cons_erase hj).countP_eq (fun j => j.1 = r)
  rw [List.countP_cons] at hcount
  unfold Remote.runs
  rw [List.countP_append, List.countP_singleton, hjobs, hcount, hx]
  dsimp only
  omega

theorem LocalInv.method (hs : LocalInv methods N obj s log) {f : Method σ ω} {w : ω}
    {h' : ReqHeader}
    {u : Unmarshall} {ret : Int32} {body : Bytes} {st : σ} (hj : (h, b) ∈ s.jobs)
    (hf : handler s.server.nonce methods h.proc = some f) (hp : parseReq b = some (h', u))
    (ha : f.answer w s.obj u = some (ret, body, st)) :
    LocalInv methods N obj { s with
      obj := st, jobs := s.jobs.erase (h, b), outs := (h, ret, body) :: s.outs }
      (log ++ (s.execution methods h b w).toList) := by
  obtain ⟨-,r,hmeth,hbody,hlt⟩ := answer_cases ha
  obtain ⟨c,id,ca,u',hca,hreq,hp',hu⟩ := hs.sound.job hj
  obtain rfl : u = u' := by
    rw [hp] at hp'
    cases hp'
    rfl
  rw [execution_eq hf hp hmeth, Option.toList_some]
  rw [hs.nonce] at hf
  have hargs : (shrAll f.args u).1 = s.args c id := by
    apply args_spec hu
    exact hs.typed c id ca hca f (hreq ▸ hf)
  refine ⟨⟨hs.sound.nonces, hs.sound.packed, hs.sound.bodies, hs.sound.packets, fun h' b' hj' =>
    hs.sound.jobs h' b' (List.mem_of_mem_erase hj')⟩, hs.nonce, hs.typed, ?_, fun x hx => ?_,
    fun d i ci hd hci hdone hret => ?_, fun h' ret' body' ho => ?_, fun d i ci hd hci hdone hpos =>
    (hs.answered d i ci hd hci hdone hpos).append _⟩
  · exact .snoc hs.replays hf hmeth rfl
  · rcases List.mem_append.mp hx with hx | hx
    · exact hs.made x hx
    · obtain rfl := List.mem_singleton.mp hx
      exact ⟨c, id, ca, hca, hreq, hargs⟩
  · rw [runs_of_erase hj rfl rfl]
    exact hs.once d i ci hd hci hdone hret
  · rcases List.mem_cons.mp ho with heq | ho
    · cases heq
      exact ⟨_, List.mem_append_right _ (List.mem_singleton.mpr rfl), rfl, rfl, hbody, hlt⟩
    · obtain ⟨x,hx,hrest⟩ := hs.outs h' ret' body' ho
      exact ⟨x, List.mem_append_left _ hx, hrest⟩

theorem LocalInv.handled (hs : LocalInv methods N obj s log) {ret : Int32} {body : Bytes}
    {srv : Server} (hr : s.server.reply h ret body = some (srv, b)) :
    LocalInv methods N obj { s with
      server := srv, replies := (h.cltNonce, b) :: s.replies,
      outs := s.outs.erase (h, ret, body) } log := by
  refine ⟨⟨hs.sound.nonces, hs.sound.packed, hs.sound.bodies, hs.sound.packets, hs.sound.jobs⟩,
    (reply_nonce hr).trans hs.nonce, hs.typed, hs.replays, hs.made,
    fun c id ca hc hca hdone hret => ?_, fun h' ret' body' ho =>
      hs.outs h' ret' body' (List.mem_of_mem_erase ho), hs.answered⟩
  obtain ⟨hle,hrem⟩ := hs.once c id ca hc hca hdone hret
  refine ⟨hle, fun hne => ?_⟩
  by_cases hsame : h.cltNonce = c
  · subst hsame
    obtain ⟨-,-,-,t,heq,hcase⟩ := Server.reply_cases (reply_view hr)
    rw [heq]
    rcases hcase with ⟨-,rfl⟩ | ⟨-,hadd⟩
    · exact hrem hne
    · change ca.req.xid.toUInt32.toNat ∈ t.remembered ca.req.cltNonce.toNat
      rw [(addReply_frame hadd).1]
      exact hrem hne
  · rw [reply_view_other hsame hr]
    exact hrem hne

/-- A reply that a method gave answers the call that asked for it. -/
theorem LocalInv.gotPdu (hs : LocalInv methods N obj s log) {c : UInt32}
    (hlive : LiveInv (s.view c))
    (hgives : ∀ r body, parseReply b = some (r, body) → 0 ≤ r.ret →
      ∃ x ∈ log, x.req.cltNonce = c ∧ x.req.xid = r.xid ∧ x.Gives r.ret body) :
    LocalInv methods N obj (s.setClient c ((s.clients c).gotPdu b)) log := by
  refine hs.setClient (fun id ca' hca' => ?_) (gotPdu_keeps hlive.client.calls b)
  obtain ⟨ca,hca,hl,hnew⟩ := gotPdu_later hlive.client hca'
  refine ⟨ca, hca, hl, fun hd => ?_⟩
  by_cases hd₀ : ca.done = true
  · exact Or.inl hd₀
  · right
    intro hc hpos
    rcases hnew hd with h | ⟨hret,r,hp,hx,hr⟩
    · exact absurd h hd₀
    · obtain ⟨x,hxl,hn,hxid,hg⟩ := hgives r ca'.un hp (hr ▸ hpos)
      obtain ⟨d,j,cj,hcj,hreq,-⟩ := hs.made x hxl
      obtain rfl : d = c := by rw [← hs.sound.packed d j cj hcj, ← hreq, hn]
      have hsame : cj.xid = ca.xid := by
        rw [← (hlive.client.packed j cj hcj).xid, ← hreq, hxid, hx]
      obtain rfl := hlive.client.unique j cj id ca hcj hca hsame
      obtain rfl : cj = ca := Option.some.inj (hcj.symm.trans hca)
      have honce := (hs.once d j cj hc hca (by simpa using hd₀) hret).1
      apply answered_of_once hxl (hreq.trans hl.req.symm) (hr ▸ hg)
      rw [hl.req]
      exact Nat.le_trans (Nat.le_add_right _ _) honce

theorem local_step (hs : LocalInv methods N obj s log) (hlive : ∀ c, LiveInv (s.view c))
    (htyped : e.Typed (handler N methods))
    (hgives : ∀ c b, (c, b) ∈ s.replies → ∀ r body, parseReply b = some (r, body) → 0 ≤ r.ret →
      ∃ x ∈ log, x.req.cltNonce = c ∧ x.req.xid = r.xid ∧ x.Gives r.ret body)
    (hm : s.Moves methods e s') :
    LocalInv methods N obj s' (s.noteMethod methods e s' log) := by
  cases hm with
  | start hmar hk => exact hs.start (hlive _) hmar hk htyped
  | @transmit c id ca hca hret =>
    refine ⟨⟨hs.sound.nonces, hs.sound.packed, hs.sound.bodies, fun b hb => ?_, fun h b hj => ?_⟩,
      hs.nonce, hs.typed, hs.replays, hs.made, hs.once, hs.outs, hs.answered⟩
    · rcases List.mem_cons.mp hb with rfl | hb
      · exact ⟨c, id, ca, hca, rfl⟩
      · exact hs.sound.packets b hb
    · obtain ⟨hb,hp⟩ := hs.sound.jobs h b hj
      exact ⟨List.mem_cons_of_mem _ hb, hp⟩
  | garbled => exact hs
  | deliver hb hp hd => exact hs.deliver (hlive _) hb hp hd
  | method hj hf hp ha => exact hs.method hj hf hp ha
  | handled ho hr => exact hs.handled hr
  | gotPdu hb => exact hs.gotPdu (hlive _) (hgives _ _ hb)
  | finish hk =>
    refine hs.setClient (fun id ca' hca' => ?_) (finish_keeps hk)
    obtain ⟨ca,hca,hl,hd⟩ := finish_later hk hca'
    exact ⟨ca, hca, hl, fun h => Or.inl (hd h)⟩
  | bind hk =>
    refine hs.setClient (fun id ca' hca' => ?_) (bind_keeps hk)
    obtain ⟨ca,hca,hl,hd⟩ := bind_later hk hca'
    exact ⟨ca, hca, hl, fun h => Or.inl (hd h)⟩

/-- What `dispatch` has sent off to a client, a method has given. -/
theorem handled_gives {c : UInt32} {fs : List NetEvent} (hs : LocalInv methods N obj s log)
    (hsent : ∀ h ret body, NetEvent.handled h ret body ∈ fs → ∃ x ∈ log, x.req = h ∧
      x.Gives ret body)
    (hm : s.Moves methods e s') (h : ReqHeader) (ret : Int32) (body : Bytes)
    (hmem : NetEvent.handled h ret body ∈ fs ++ e.view c) :
    ∃ x ∈ s.noteMethod methods e s' log, x.req = h ∧ x.Gives ret body := by
  have hlog : ∀ x ∈ log, x ∈ s.noteMethod methods e s' log := by
    intro x hx
    unfold Remote.noteMethod
    split
    · exact List.mem_append_left _ hx
    · exact hx
  have hnow : ∃ x ∈ log, x.req = h ∧ x.Gives ret body := by
    rcases List.mem_append.mp hmem with hmem | hmem
    · exact hsent h ret body hmem
    · cases hm with
      | handled ho hr =>
        simp only [RemoteEvent.view] at hmem
        split_ifs at hmem
        · cases List.mem_singleton.mp hmem
          exact hs.outs h ret body ho
        · cases hmem
      | garbled hb hp => simp [RemoteEvent.view, hp] at hmem
      | @deliver _ r _ _ _ hb hp hd =>
        by_cases hr : r.cltNonce = c <;> simp [RemoteEvent.view, hp, hr] at hmem
      | method => cases hmem
      | @start d | @transmit d | @gotPdu d | @finish d | @bind d =>
        by_cases hd : d = c <;> simp [RemoteEvent.view, hd] at hmem
  obtain ⟨x,hx,hrest⟩ := hnow
  exact ⟨x, hlog x hx, hrest⟩

/-- A run, seen by each of the clients, with its log. -/
structure RemoteRun (methods : Int32 → Option (Method σ ω)) (N : UInt32) (obj : σ)
    (es : List (RemoteEvent ω)) (s : Remote σ) (log : List (Execution ω)) : Prop where
  inv : LocalInv methods N obj s log
  views : ∀ c, run Net.step (Net.init c N (fun proc => (methods proc).isSome))
    (es.flatMap (RemoteEvent.view c)) = some (s.view c)
  sent : ∀ c h ret body, NetEvent.handled h ret body ∈ es.flatMap (RemoteEvent.view c) →
    ∃ x ∈ log, x.req = h ∧ x.Gives ret body

theorem local_init : LocalInv methods N obj (Remote.init methods N obj) [] where
  sound := ⟨fun _ => rfl, fun _ _ _ h => (by cases h), fun _ _ _ h => (by cases h),
    fun _ h => (by cases h), fun _ _ h => (by cases h)⟩
  nonce := rfl
  typed _ _ _ h := by cases h
  replays := .nil
  made _ h := by cases h
  once _ _ _ _ h := by cases h
  outs _ _ _ h := by cases h
  answered _ _ _ _ h := by cases h

theorem view_init (c : UInt32) : (Remote.init methods N obj).view c =
    Net.init c N (fun proc => (methods proc).isSome) := by
  have hempty : ∀ {α : Type}, (∅ : Std.ExtTreeMap ℕ α).filter (fun m _ => m == c.toNat) = ∅ := by
    intro α
    apply Std.ExtTreeMap.ext_getElem?
    intro k
    rw [Std.ExtTreeMap.getElem?_filter']
    simp
  simp [Remote.view, Remote.init, Net.init, Server.only, Rpcs.only, hempty]

theorem callsMade_append (fs gs : List NetEvent) :
    callsMade (fs ++ gs) = callsMade fs+callsMade gs := List.countP_append

/-- A step makes one call at most. -/
theorem callsMade_view_le (c : UInt32) (es : List (RemoteEvent ω)) :
    callsMade (es.flatMap (RemoteEvent.view c)) ≤ es.length := by
  have hone : ∀ e : RemoteEvent ω, (e.view c).length ≤ 1 := by
    intro e
    cases e with
    | method => exact Nat.zero_le _
    | deliver b =>
      simp only [RemoteEvent.view]
      generalize (parseReq b).bind _ = o
      cases o <;> simp
    | _ =>
      simp only [RemoteEvent.view]
      split_ifs <;> simp
  induction es with
  | nil => exact Nat.le_refl 0
  | cons e es ih =>
    have hle : callsMade (e.view c) ≤ 1 := Nat.le_trans List.countP_le_length (hone e)
    rw [List.flatMap_cons, callsMade_append, List.length_cons]
    omega

theorem remote_run {es : List (RemoteEvent ω)}
    (hrun : run (Remote.step methods) (Remote.init methods N obj) es = some s)
    (hcalls : ∀ c, callsMade (es.flatMap (RemoteEvent.view c)) < 2^32-1)
    (htyped : ∀ e ∈ es, e.Typed (handler N methods)) :
    RemoteRun methods N obj es s ((Remote.init methods N obj).executions methods es) := by
  revert hcalls htyped
  refine run_history (I := fun es s => (∀ c, callsMade (es.flatMap (RemoteEvent.view c)) < 2^32-1) →
    (∀ e ∈ es, e.Typed (handler N methods)) →
    RemoteRun methods N obj es s ((Remote.init methods N obj).executions methods es))
    (fun _ _ => ⟨local_init, fun c => ?_, fun _ _ _ _ h => by cases h⟩) ?_ hrun
  · rw [view_init]
    rfl
  intro fs e r r' hr ih hstep hcalls htyped
  have hflat : ∀ c, (fs ++ [e]).flatMap (RemoteEvent.view c) =
      fs.flatMap (RemoteEvent.view c) ++ e.view c := fun c => by simp
  have hlog : (Remote.init methods N obj).executions methods (fs ++ [e]) =
      r.noteMethod methods e r' ((Remote.init methods N obj).executions methods fs) :=
    observed_snoc hr hstep
  have hfew : ∀ c, callsMade (fs.flatMap (RemoteEvent.view c)) < 2^32-1 := by
    intro c
    have hall := hcalls c
    rw [hflat, callsMade_append] at hall
    omega
  have hprev := ih hfew (fun a ha => htyped a (List.mem_append_left _ ha))
  have hm := Remote.step_moves hstep
  have hlive : ∀ c, LiveInv (r.view c) := fun c => live_run c N _ (hfew c) (hprev.views c)
  have hgives : ∀ c b, (c, b) ∈ r.replies → ∀ q body, parseReply b = some (q, body) → 0 ≤ q.ret →
      ∃ x ∈ (Remote.init methods N obj).executions methods fs, x.req.cltNonce = c ∧
        x.req.xid = q.xid ∧ x.Gives q.ret body := by
    intro c b hb q body hp hpos
    have hmem : b ∈ (r.view c).replies := List.mem_filterMap.mpr ⟨(c, b), hb, by simp⟩
    obtain ⟨_,hmade⟩ := (delivery_run c N _ (hprev.views c)).source.replies b hmem
    obtain ⟨h,hmem,hn,-,hxid⟩ := hmade q body hp hpos
    obtain ⟨x,hx,hreq,hg⟩ := hprev.sent c h q.ret body hmem
    refine ⟨x, hx, ?_, by rw [hreq, hxid], hg⟩
    rw [hreq]
    exact UInt32.toNat_inj.mp hn
  refine ⟨?_, fun c => ?_, fun c => ?_⟩
  · rw [hlog]
    exact local_step hprev.inv hlive (htyped e (by simp)) hgives hm
  · rw [hflat, run_append, hprev.views c, Option.bind_some]
    exact hprev.inv.sound.simulates hm c
  · rw [hlog, hflat]
    exact handled_gives hprev.inv (hprev.sent c) hm

/-- The object is what the methods make of it one after another, with the arguments of the calls;
while a call waits, its method has run at most once; and a call that returns without failure
returns, and stores in the caller's variable, what its method returned when it ran first. -/
structure LocalCalls (methods : Int32 → Option (Method σ ω)) (N : UInt32) (obj : σ) (s : Remote σ)
    (log : List (Execution ω)) : Prop where
  replays : Replays (handler N methods) obj log s.obj
  called : ∀ x ∈ log, ∃ c id ca, (s.clients c).caller id = some ca ∧ x.req = ca.req ∧
    x.args = s.args c id
  once : ∀ c id ca, c ≠ 0 → (s.clients c).caller id = some ca → ca.done = false →
    ca.returned = false → log.countP (fun x => x.req = ca.req) ≤ 1
  returns : ∀ c id ca, c ≠ 0 → (s.clients c).caller id = some ca → ca.returned = true →
    0 ≤ ca.result →
    ∃ log₁ x log₂, log = log₁ ++ x :: log₂ ∧ x.req = ca.req ∧ x.args = s.args c id ∧
      (∀ y ∈ log₁, y.req ≠ ca.req) ∧ ∀ r : x.res.1.Val, x.res.1.Resets r →
        callM x.res.1 ca.result (.ofBuf ca.un) r = some (x.ret, x.res.2)

/-- Two calls with one request are one call. -/
theorem LocalInv.unique (hs : LocalInv methods N obj s log) (hlive : ∀ c, LiveInv (s.view c))
    {c d : UInt32} {j : ℕ} {cj : Caller} (hca : (s.clients c).caller id = some ca)
    (hcj : (s.clients d).caller j = some cj) (hreq : cj.req = ca.req) : d = c ∧ j = id := by
  obtain rfl : d = c := by
    rw [← hs.sound.packed d j cj hcj, hreq, hs.sound.packed c id ca hca]
  refine ⟨rfl, (hlive d).client.unique j cj id ca hcj hca ?_⟩
  rw [← ((hlive d).client.packed j cj hcj).xid, hreq, ((hlive d).client.packed id ca hca).xid]

/-- Over a network that loses, repeats and reorders messages, the calls of any number of clients to
a server behave as calls to the object itself, if the types agree and no client's xids wrap. -/
theorem plain_calls_are_local {es : List (RemoteEvent ω)}
    (hrun : run (Remote.step methods) (Remote.init methods N obj) es = some s)
    (hcalls : ∀ c, callsMade (es.flatMap (RemoteEvent.view c)) < 2^32-1)
    (htyped : ∀ e ∈ es, e.Typed (handler N methods)) :
    LocalCalls methods N obj s ((Remote.init methods N obj).executions methods es) := by
  have hr := remote_run hrun hcalls htyped
  have hlive : ∀ c, LiveInv (s.view c) := fun c => live_run c N _ (hcalls c) (hr.views c)
  have hs := hr.inv
  refine ⟨hs.replays, hs.made, fun c id ca hc hca hd hret => ?_, fun c id ca hc hca _ hpos => ?_⟩
  · exact Nat.le_trans (Nat.le_add_right _ _) (hs.once c id ca hc hca hd hret).1
  · have hdone : ca.done = true := by
      by_contra hd
      rw [Caller.result, if_neg hd] at hpos
      exact absurd hpos (by decide)
    have hres : ca.result = ca.intret := if_pos hdone
    rw [hres] at hpos
    obtain ⟨log₁,x,log₂,hlog,hreq,⟨hret,hun,hlt⟩,hfirst⟩ := hs.answered c id ca hc hca hdone hpos
    refine ⟨log₁, x, log₂, hlog, hreq, ?_, hfirst, fun r hr => ?_⟩
    · obtain ⟨d,j,cj,hcj,hreq',hargs⟩ := hs.made x (by rw [hlog]; simp)
      obtain ⟨rfl,rfl⟩ := hs.unique hlive hca hcj (hreq'.symm.trans hreq)
      exact hargs
    · rw [hres, hun, hret]
      rw [hun] at hlt
      exact callM_spec (by omega) hpos hr

end

end DisconnectedYfs.RPC
