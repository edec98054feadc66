import DisconnectedYfs.RPCRoundTrip

/-! The client endpoint of RPC (`rpcc` in `rpc/rpc.cc`). A call of `call1` runs in three pieces
under `m_`: it allocates an xid and marshals its request once; replies come in through `got_pdu`
meanwhile; at the end it leaves `calls_` and reports its xid as seen, whether it got a reply or
gave up. Calls are named by numbers of their own, as xids wrap. -/
namespace DisconnectedYfs.RPC

/-- `rpc_const::bind`. -/
def bindProc : Int32 := 1

def timeoutFailure : Int32 := -1

def atmostonceFailure : Int32 := -4

def oldsrvFailure : Int32 := -5

/-- The reply PDU with header `h` and the given body, as `pack_reply_header` leaves it. The size
field and the part of the header area that a reply does not use are left as zeros. -/
def replyBuf (h : ReplyHeader) (body : Bytes) : Bytes :=
  List.replicate rpcSz 0 ++ (encodeHeader (.reply h) ++ (List.replicate 12 0 ++ body))

/-- What a receiver reads from a reply PDU: the header, if there is one, and the body that
`take_in` keeps. -/
def parseReply (b : Bytes) : Option (ReplyHeader × Bytes) :=
  let p := Unmarshall.unpackReplyHeader { buf := fun i => b.getD i 0, sz := b.length }
  if p.2.ok then some (p.1, b.drop rpcHeaderSz) else none

/-- A call of `call1`: its `caller` object, the request header it has packed, and whether it has
returned. `bound` is set once `bind` has stored the result of a bind call. -/
structure Caller where
  xid : UInt32
  req : ReqHeader
  done : Bool := false
  intret : Int32 := 0
  un : Bytes := []
  returned : Bool := false
  bound : Bool := false
deriving DecidableEq, Repr

/-- The value `call1` returns. -/
def Caller.result (ca : Caller) : Int32 := if ca.done then ca.intret else timeoutFailure

/-- `got_pdu` at the caller it finds: a reply counts only if it is the first. -/
def Caller.takeReply (ca : Caller) (h : ReplyHeader) (body : Bytes) : Caller :=
  if ca.done then ca else { ca with un := body, intret := h.ret, done := true }

structure Rpcc where
  cltNonce : UInt32
  srvNonce : UInt32 := 0
  bindDone : Bool := false
  xid : UInt32 := 1
  calls : UInt32 → Option ℕ := fun _ => none
  xidRepWindow : List UInt32 := [0]
  caller : ℕ → Option Caller := fun _ => none

/-- The insertion of `update_xid_rep`: before the first larger element, or at the end. -/
def insertXid (xid : UInt32) : List UInt32 → List UInt32
  | [] => [xid]
  | x :: xs => if x > xid then xid :: x :: xs else x :: insertXid xid xs

/-- The loop at `compress`. `front` is the list before the iterator: elements are popped off its
front as long as the element at the iterator is their successor. -/
def compress : List UInt32 → List UInt32 → List UInt32
  | front, [] => front
  | front, x :: rest => compress (front.dropWhile (fun y => y+1 == x) ++ [x]) rest

/-- `update_xid_rep` on the list it changes, which is never empty. -/
def updateWindow (xid : UInt32) (w : List UInt32) : List UInt32 :=
  match w with
  | [] => []
  | f :: _ =>
    if xid ≤ f then w
    else
      match insertXid xid w with
      | [] => []
      | g :: rest => compress [g] rest

namespace Rpcc

def updateXidRep (c : Rpcc) (xid : UInt32) : Rpcc :=
  { c with xidRepWindow := updateWindow xid c.xidRepWindow }

/-- `xid_rep_window_.front()`. -/
def front (c : Rpcc) : UInt32 := c.xidRepWindow.headD 0

/-- The `caller` and the request header that a call of `proc` starts with. -/
def newCaller (c : Rpcc) (proc : Int32) : Caller :=
  { xid := c.xid,
    req := { xid := c.xid.toInt32, proc := proc, cltNonce := c.cltNonce, srvNonce := c.srvNonce,
             xidRep := c.front.toInt32 } }

/-- The first part of `call1`, for a call named `id`. A call that is refused with `bind_failure`
changes nothing. -/
def start (c : Rpcc) (id : ℕ) (proc : Int32) : Option Rpcc :=
  if (c.caller id).isSome then none
  else if (proc ≠ bindProc ∧ !c.bindDone) ∨ (proc = bindProc ∧ c.bindDone) then some c
  else
    some { c with
      xid := c.xid+1,
      calls := Function.update c.calls c.xid (some id),
      caller := Function.update c.caller id (some (c.newCaller proc)) }

def gotPdu (c : Rpcc) (b : Bytes) : Rpcc :=
  match parseReply b with
  | none => c
  | some (h, body) =>
    let c := c.updateXidRep h.xid.toUInt32
    match c.calls h.xid.toUInt32 with
    | none => c
    | some id =>
      let ca := (c.caller id).map (fun ca => ca.takeReply h body)
      { c with caller := Function.update c.caller id ca }

/-- The last part of `call1`, after a reply or the final deadline. -/
def finish (c : Rpcc) (id : ℕ) : Option Rpcc :=
  match c.caller id with
  | none => none
  | some ca =>
    if ca.returned then none
    else
      let c := { c with calls := Function.update c.calls ca.xid none }
      let c := c.updateXidRep ca.xid
      some { c with caller := Function.update c.caller id (some { ca with returned := true }) }

/-- The rest of `bind` after its call returned 0: the reply is an `int`, else a `VERIFY` fails. -/
def bind (c : Rpcc) (id : ℕ) : Option Rpcc :=
  match c.caller id with
  | none => none
  | some ca =>
    if ca.returned ∧ !ca.bound ∧ ca.req.proc = bindProc ∧ ca.result = 0 then
      let p := Unmarshall.shrInt { buf := fun i => ca.un.getD i 0, sz := ca.un.length }
      if p.2.okdone then
        some { c with
          bindDone := true, srvNonce := p.1.toUInt32,
          caller := Function.update c.caller id (some { ca with bound := true }) }
      else none
    else none

/-- All that `start` can do. -/
theorem start_cases {k k' : Rpcc} {id : ℕ} {proc : Int32} (h : k.start id proc = some k') :
    k.caller id = none ∧ (k' = k ∨
      (k.bindDone = true ↔ proc ≠ bindProc) ∧ k' = { k with
        xid := k.xid+1,
        calls := Function.update k.calls k.xid (some id),
        caller := Function.update k.caller id (some (k.newCaller proc)) }) := by
  unfold start at h
  split_ifs at h with hid hbind
  · exact ⟨Option.not_isSome_iff_eq_none.mp hid, Or.inl (Option.some.inj h).symm⟩
  · refine ⟨Option.not_isSome_iff_eq_none.mp hid, Or.inr ⟨?_, (Option.some.inj h).symm⟩⟩
    cases hb : k.bindDone <;> simp_all

/-- All that `finish` can do. -/
theorem finish_cases {k k' : Rpcc} {id : ℕ} (h : k.finish id = some k') :
    ∃ ca, k.caller id = some ca ∧ ca.returned = false ∧
      k' = { k with
        calls := Function.update k.calls ca.xid none,
        xidRepWindow := updateWindow ca.xid k.xidRepWindow,
        caller := Function.update k.caller id (some { ca with returned := true }) } := by
  unfold finish at h
  split at h
  · contradiction
  · rename_i ca hca
    split_ifs at h with hret
    exact ⟨ca, hca, Bool.not_eq_true _ ▸ hret, (Option.some.inj h).symm⟩

/-- All that `bind` can do. -/
theorem bind_cases {k k' : Rpcc} {id : ℕ} (h : k.bind id = some k') :
    ∃ ca r u, k.caller id = some ca ∧ ca.returned = true ∧ ca.req.proc = bindProc ∧
      ca.result = 0 ∧
      Unmarshall.shrInt { buf := fun i => ca.un.getD i 0, sz := ca.un.length } = (r, u) ∧
      u.okdone = true ∧
      k' = { k with
        bindDone := true, srvNonce := r.toUInt32,
        caller := Function.update k.caller id (some { ca with bound := true }) } := by
  unfold bind at h
  split at h
  · contradiction
  · rename_i ca hca
    generalize hp : Unmarshall.shrInt { buf := fun i => ca.un.getD i 0, sz := ca.un.length } = p
      at h
    dsimp only at h
    split_ifs at h with hres hok
    exact ⟨ca, p.1, p.2, hca, hres.1, hres.2.2.1, hres.2.2.2, hp, hok, (Option.some.inj h).symm⟩

/-- All that `got_pdu` can do. -/
theorem gotPdu_cases (k : Rpcc) (b : Bytes) :
    (parseReply b = none ∧ k.gotPdu b = k) ∨
    ∃ h body, parseReply b = some (h, body) ∧
      ((k.calls h.xid.toUInt32 = none ∧ k.gotPdu b = k.updateXidRep h.xid.toUInt32) ∨
        ∃ id, k.calls h.xid.toUInt32 = some id ∧ k.gotPdu b =
          { k.updateXidRep h.xid.toUInt32 with
            caller := Function.update k.caller id
              ((k.caller id).map (fun ca => ca.takeReply h body)) }) := by
  unfold gotPdu
  split
  · rename_i hp
    exact Or.inl ⟨hp, rfl⟩
  · rename_i h body hp
    refine Or.inr ⟨h, body, hp, ?_⟩
    dsimp only [updateXidRep]
    split
    · rename_i hid
      exact Or.inl ⟨hid, rfl⟩
    · rename_i id hid
      exact Or.inr ⟨id, hid, rfl⟩

theorem gotPdu_xid (k : Rpcc) (b : Bytes) : (k.gotPdu b).xid = k.xid := by
  rcases k.gotPdu_cases b with ⟨-,h⟩ | ⟨h,body,-,⟨-,heq⟩ | ⟨id,-,heq⟩⟩
  · rw [h]
  · rw [heq]
    rfl
  · rw [heq]
    rfl

end Rpcc

/-- A caller that was offered a reply has one, and is otherwise the same. -/
theorem takeReply_frame (ca : Caller) (h : ReplyHeader) (body : Bytes) :
    (ca.takeReply h body).xid = ca.xid ∧ (ca.takeReply h body).req = ca.req ∧
      (ca.takeReply h body).returned = ca.returned ∧ (ca.takeReply h body).done = true := by
  unfold Caller.takeReply
  split_ifs with hd
  · exact ⟨rfl, rfl, rfl, hd⟩
  · exact ⟨rfl, rfl, rfl, rfl⟩

theorem update_eq_some {α β : Type} [DecidableEq α] {f : α → Option β} {a b : α} {v : Option β}
    {y : β} (h : Function.update f a v b = some y) :
    (b = a ∧ v = some y) ∨ (b ≠ a ∧ f b = some y) := by
  by_cases hb : b = a
  · subst hb
    rw [Function.update_self] at h
    exact Or.inl ⟨rfl, h⟩
  · rw [Function.update_of_ne hb] at h
    exact Or.inr ⟨hb, h⟩

theorem update_eq_none {α β : Type} [DecidableEq α] {f : α → Option β} {a b : α} {y : β}
    (h : Function.update f a (some y) b = none) : b ≠ a ∧ f b = none := by
  by_cases hb : b = a
  · subst hb
    rw [Function.update_self] at h
    cases h
  · rw [Function.update_of_ne hb] at h
    exact ⟨hb, h⟩

theorem caller_update {f : ℕ → Option Caller} {id j : ℕ} {new ca : Caller}
    (h : Function.update f id (some new) j = some ca) :
    (j = id ∧ ca = new) ∨ (j ≠ id ∧ f j = some ca) :=
  (update_eq_some h).imp (fun h => ⟨h.1, (Option.some.inj h.2).symm⟩) (fun h => h)

theorem replyBuf_length (h : ReplyHeader) (body : Bytes) :
    (replyBuf h body).length = rpcHeaderSz+body.length := by
  simp [replyBuf, encodeHeader, be32, rpcSz, rpcHeaderSz]
  omega

theorem unpacking_map {α β : Type} (g : α → β) (f : Unpacking α) (u : Unmarshall) :
    (g <$> f) u = (g (f u).1, (f u).2) := rfl

/-- The header of a reply is read as it was made. -/
theorem unpackReplyHeader_replyBuf {h : ReplyHeader} {body b : Bytes} (hb : b = replyBuf h body)
    (hlen : b.length < 2^31) :
    Unmarshall.unpackReplyHeader { buf := fun i => b.getD i 0, sz := b.length } =
      (h, { buf := fun i => b.getD i 0, sz := b.length, ind := rpcHeaderSz }) := by
  have hbytes : slice (fun i => b.getD i 0) rpcSz (encodeHeader (.reply h)).length =
      encodeHeader (.reply h) := by
    rw [hb]
    rfl
  have hl := replyBuf_length h body
  have hsz := encodeHeader_length_le (.reply h)
  rw [← hb] at hl
  obtain ⟨u,hu⟩ : ∃ u : Unmarshall, u = { buf := fun i => b.getD i 0, sz := b.length } := ⟨_, rfl⟩
  have hread : unpackHeader .reply u = (.reply h, { u with ind := rpcHeaderSz }) := by
    rw [hu]
    exact unpackHeader_spec (.reply h) ⟨rfl, hlen, show rpcSz+_ ≤ b.length by omega, hbytes⟩
  rw [show unpackHeader .reply = Header.reply <$> Unmarshall.unpackReplyHeader from rfl,
    unpacking_map] at hread
  obtain ⟨h1,h2⟩ := Prod.mk.inj hread
  rw [← hu]
  refine Prod.ext (Header.reply.inj h1) (h2.trans ?_)
  rw [hu]

/-- A reply is read as it was made. -/
theorem parseReply_replyBuf (h : ReplyHeader) (body : Bytes)
    (hlen : (replyBuf h body).length < 2^31) :
    parseReply (replyBuf h body) = some (h, body) := by
  obtain ⟨b,hb⟩ : ∃ b, b = replyBuf h body := ⟨_, rfl⟩
  have hdrop : b.drop rpcHeaderSz = body := by
    rw [hb]
    rfl
  rw [← hb] at hlen ⊢
  unfold parseReply
  dsimp only
  rw [unpackReplyHeader_replyBuf hb hlen, if_pos rfl, hdrop]

end DisconnectedYfs.RPC
