import DisconnectedYfs.RPCMarshallGrowth
import DisconnectedYfs.RPCDecoding
import DisconnectedYfs.RPCRestart

/-! Typed calls (`rpcc::call`, `rpcc::call_m` and `rpcs::reg` in `rpc/rpc.h`). The client marshals
the arguments; the wrapper that `reg` makes for a method unmarshals them, calls the method and
marshals its result. A message does not say of which types its values are: both sides have to
agree. -/
namespace DisconnectedYfs.RPC

/-- `rpc_const::unmarshal_args_failure`. -/
def unmarshalArgsFailure : Int32 := -2

/-- What stands behind the header area. -/
def Marshall.body (m : Marshall) : Bytes := slice m.buf rpcHeaderSz (m.ind-rpcHeaderSz)

/-- What `m << v1 << v2 << ...` leaves in a new `marshall`. -/
def marshalled (vs : List Value) : Option Bytes :=
  (shlAll vs (Marshall.init (fun _ => 0))).map (fun p => p.2.body)

/-- The request PDU with header `h` and the given body, as `pack_req_header` leaves it. The size
field is left as zeros. -/
def reqBuf (h : ReqHeader) (body : Bytes) : Bytes :=
  List.replicate rpcSz 0 ++ (encodeHeader (.req h) ++ body)

/-- The `unmarshall` of a buffer. -/
def Unmarshall.ofBuf (b : Bytes) : Unmarshall := { buf := fun i => b.getD i 0, sz := b.length }

/-- The header `dispatch` reads, and the unread rest. Without a header there is no result. -/
def parseReq (b : Bytes) : Option (ReqHeader × Unmarshall) :=
  let p := Unmarshall.unpackReqHeader (.ofBuf b)
  if p.2.ok then some p else none

/-- What `reg` registers: the types of the arguments and of the result of a method, and what it
returns, leaves in its result variable and makes of the object. It may depend on what the method
finds outside, such as the time; without a result, a `VERIFY` has failed. -/
structure Method (σ ω : Type) where
  args : List Ty
  res : Ty
  meth : List Value → ω → σ → Option ((Int32 × res.Val) × σ)

section
variable {σ ω : Type}

/-- `rpcs::rpcbind`. -/
def rpcbind (nonce : UInt32) : Method σ ω :=
  { args := [.int], res := .int, meth := fun _ _ st => some ((0, nonce.toInt32), st) }

/-- `h1::fn`. -/
def Method.fn (f : Method σ ω) (w : ω) (st : σ) (args : Unmarshall) : Packing (Int32 × σ) :=
  let (vs, args) := shrAll f.args args
  if !args.okdone then return (unmarshalArgsFailure, st)
  else do
    let ((b, r), st) ← (f.meth vs w st : Option ((Int32 × f.res.Val) × σ))
    f.res.shl r
    return (b, st)

/-- What `dispatch` gets from the handler: its return value and the marshalled result. If the
arguments were not unmarshalled, a `VERIFY` fails. -/
def Method.answer (f : Method σ ω) (w : ω) (st : σ) (args : Unmarshall) :
    Option (Int32 × Bytes × σ) :=
  (f.fn w st args (Marshall.init (fun _ => 0))).bind (fun p =>
    if p.1.1 = unmarshalArgsFailure then none else some (p.1.1, p.2.body, p.1.2))

end

/-! Marshalling that does not fail. -/

/-- The operator appends `bs` unless it fails. -/
def Puts (f : Packing Unit) (bs : Bytes) : Prop :=
  ∀ m m', m.ind ≤ m.capa → m.capa < 2^31 → f m = some ((), m') →
    Wrote m bs m' ∧ m'.capa < 2^31

section
variable {f g : Packing Unit} {m m' : Marshall} {a b p : Bytes}

theorem Puts.seq (hf : Puts f a) (hg : Puts g b) : Puts (do f; g) (a ++ b) := by
  intro m m' hm hc h
  obtain ⟨m₁,hm₁,hm'⟩ := seq_some h
  obtain ⟨hw₁,hc₁⟩ := hf _ _ hm hc hm₁
  obtain ⟨hw₂,hc₂⟩ := hg _ _ hw₁.fits hc₁ hm'
  exact ⟨hw₁.append hw₂, hc₂⟩

theorem Puts.forM {α : Type} {f : α → Packing Unit} {e : α → Bytes} (h : ∀ x, Puts (f x) (e x))
    (l : List α) : Puts (l.forM f) (l.flatMap e) := by
  induction l with
  | nil =>
    intro m m' hm hc h
    cases h
    exact ⟨⟨rfl, Nat.le_refl _, hm, rfl, fun _ _ => rfl⟩, hc⟩
  | cons x xs ih => exact (h x).seq ih

theorem store_puts (h : Marshall.store p m = some ((), m')) : Wrote m p m' := by
  have hfit : m.ind+p.length ≤ m.capa := by
    by_contra hn
    have hfail : Marshall.store p m = none := if_neg hn
    rw [hfail] at h
    cases h
  obtain ⟨m₁,hm₁,hw⟩ := store_wrote p hfit
  rw [hm₁] at h
  cases h
  exact hw

theorem realloc_store_puts {n : ℕ} (hn : m.capa ≤ n)
    (h : (Marshall.realloc n >>= fun _ => Marshall.store p) m = some ((), m')) :
    Wrote m p m' ∧ m'.capa < 2^31 := by
  obtain ⟨m₁,hm₁,hm'⟩ := seq_some h
  unfold Marshall.realloc at hm₁
  split_ifs at hm₁ with hlt
  cases hm₁
  have hcapa : m'.capa = n := (store_some hm').2
  refine ⟨(store_puts hm').of_realloc hn, ?_⟩
  rw [hcapa]
  exact hlt

theorem puts_rawbyte (x : UInt8) : Puts (Marshall.rawbyte x) [x] := by
  intro m m' _ hc h
  rw [rawbyte_apply] at h
  by_cases hfull : m.ind ≥ m.capa
  · rw [if_pos hfull] at h
    exact realloc_store_puts (by omega) h
  · rw [if_neg hfull] at h
    refine ⟨store_puts h, ?_⟩
    rw [(store_some h).2]
    exact hc

theorem puts_rawbytes (p : Bytes) : Puts (Marshall.rawbytes p) p := by
  intro m m' _ hc h
  have hint : ¬ m.ind+p.length ≥ 2^31 := by
    intro hlarge
    have hfail : Marshall.rawbytes p m = none := congrFun (if_pos hlarge) m
    rw [hfail] at h
    cases h
  rw [rawbytes_apply p m hint] at h
  by_cases hfull : m.ind+p.length > m.capa
  · rw [if_pos hfull] at h
    apply realloc_store_puts _ h
    split_ifs <;> omega
  · rw [if_neg hfull] at h
    refine ⟨store_puts h, ?_⟩
    rw [(store_some h).2]
    exact hc

theorem puts_shlUShort (x : UInt16) : Puts (Marshall.shlUShort x) (be16 x) := by
  unfold Marshall.shlUShort
  rw [toUInt8_mask16, toUInt8_mask16]
  exact (puts_rawbyte _).seq (puts_rawbyte _)

theorem puts_shlUInt (x : UInt32) : Puts (Marshall.shlUInt x) (be32 x) := by
  unfold Marshall.shlUInt
  rw [toUInt8_mask, toUInt8_mask, toUInt8_mask, toUInt8_mask]
  exact (puts_rawbyte _).seq ((puts_rawbyte _).seq ((puts_rawbyte _).seq (puts_rawbyte _)))

theorem puts_shlString (s : Bytes) : Puts (Marshall.shlString s) (encodeString s) :=
  (puts_shlUInt _).seq (puts_rawbytes s)

theorem puts_shl (t : Ty) (x : t.Val) : Puts (t.shl x) (t.encode x) := by
  induction t with
  | bool => exact puts_rawbyte _
  | char => exact puts_rawbyte _
  | uchar => exact puts_rawbyte _
  | short => exact puts_shlUShort _
  | ushort => exact puts_shlUShort _
  | int => exact puts_shlUInt _
  | uint => exact puts_shlUInt _
  | ulonglong => exact (puts_shlUInt _).seq (puts_shlUInt _)
  | string => exact puts_shlString x
  | attr =>
    exact (puts_shlUInt _).seq ((puts_shlUInt _).seq ((puts_shlUInt _).seq
      ((puts_shlUInt _).seq ((puts_shlUInt _).seq (puts_shlString _)))))
  | vector t ih => exact (puts_shlUInt _).seq (Puts.forM ih x)
  | map k v ihk ihv =>
    exact (puts_shlUInt _).seq
      (Puts.forM (fun y => (ihk y.1).seq (ihv y.2)) (Subtype.val x))

theorem puts_shlAll (vs : List Value) : Puts (shlAll vs) (encodeAll vs) :=
  Puts.forM (f := fun v : Value => v.1.shl v.2) (e := fun v => v.1.encode v.2)
    (fun v => puts_shl v.1 v.2) vs

/-- What an operator writes first stands behind the header area. -/
theorem Puts.body (hf : Puts f a) (h : f (Marshall.init (fun _ => 0)) = some ((), m')) :
    m'.body = a ∧ rpcHeaderSz+a.length < 2^31 := by
  have hsmall : rpcHeaderSz ≤ 1024 := by decide
  obtain ⟨hw,hc⟩ := hf _ _ hsmall (show 1024 < 2^31 by decide) h
  have hind : m'.ind = rpcHeaderSz+a.length := hw.ind
  have hfits := hw.fits
  refine ⟨?_, by omega⟩
  have hbytes : slice m'.buf rpcHeaderSz a.length = a := hw.bytes
  rw [Marshall.body, hind, Nat.add_sub_cancel_left, hbytes]

theorem marshalled_eq {vs : List Value} (h : marshalled vs = some b) :
    b = encodeAll vs ∧ rpcHeaderSz+b.length < 2^31 := by
  obtain ⟨⟨_,m⟩,hm,rfl⟩ := Option.map_eq_some_iff.mp h
  obtain ⟨hbody,hlt⟩ := (puts_shlAll vs).body hm
  rw [hbody]
  exact ⟨rfl, hlt⟩

end

/-! Reading what was marshalled. -/

theorem slice_getD (a b : Bytes) :
    slice (fun i => (a ++ b).getD i 0) a.length b.length = b := by
  apply List.ext_getElem
  · rw [length_slice]
  · intro i hi hi'
    simp [slice, hi']

theorem ofBuf_holds {b : Bytes} (h : b.length < 2^31) : Holds (.ofBuf b) b :=
  ⟨rfl, h, by simp [Unmarshall.ofBuf], slice_getD [] b⟩

theorem reqBuf_length (h : ReqHeader) (body : Bytes) :
    (reqBuf h body).length = rpcHeaderSz+body.length := by
  simp [reqBuf, encodeHeader, be32, rpcSz, rpcHeaderSz]
  omega

/-- A request is read as it was made. -/
theorem parseReq_reqBuf (h : ReqHeader) (body : Bytes) (hlen : rpcHeaderSz+body.length < 2^31) :
    ∃ u, parseReq (reqBuf h body) = some (h, u) ∧ Holds u body ∧ u.ind+body.length = u.sz := by
  have hl := reqBuf_length h body
  have hhead : Holds { Unmarshall.ofBuf (reqBuf h body) with ind := rpcSz }
    (encodeHeader (.req h)) := by
    have hall := ofBuf_holds (b := reqBuf h body) (by omega)
    exact (hall.append_right (a := List.replicate rpcSz 0)).append_left
  have hread := unpackHeader_spec (.req h) hhead
  rw [show unpackHeader (Header.req h).kind = Header.req <$> Unmarshall.unpackReqHeader from rfl,
    unpacking_map] at hread
  obtain ⟨h1,h2⟩ := Prod.mk.inj hread
  refine ⟨{ Unmarshall.ofBuf (reqBuf h body) with ind := rpcHeaderSz }, ?_, ?_, ?_⟩
  · unfold parseReq
    dsimp only
    rw [if_pos (by rw [h2]; rfl)]
    exact congrArg some (Prod.ext (Header.req.inj h1) h2)
  · have hall : Holds (.ofBuf (reqBuf h body))
        ((List.replicate rpcSz 0 ++ encodeHeader (.req h)) ++ body) := by
      rw [List.append_assoc]
      exact ofBuf_holds (b := reqBuf h body) (by omega)
    have harea : (List.replicate rpcSz 0 ++ encodeHeader (.req h)).length = rpcHeaderSz := rfl
    have hrest := hall.append_right
    rw [harea] at hrest
    exact hrest
  · exact hl.symm

section
variable {σ ω : Type} {f : Method σ ω} {w : ω} {st st' : σ} {vs : List Value} {u : Unmarshall}

/-- The wrapper has a result to send if the arguments were read to the end of the message, and then
it is the method's. -/
theorem answer_cases {ret : Int32} {body : Bytes} (h : f.answer w st u = some (ret, body, st')) :
    (shrAll f.args u).2.okdone = true ∧ ∃ r,
      f.meth (shrAll f.args u).1 w st = some ((ret, r), st') ∧ body = f.res.encode r ∧
      rpcHeaderSz+body.length < 2^31 := by
  obtain ⟨⟨⟨b,st₁⟩,m⟩,hm,hres⟩ := Option.bind_eq_some_iff.mp h
  dsimp only at hres
  split_ifs at hres with hb
  cases hres
  have hfn : f.fn w st u = if !(shrAll f.args u).2.okdone then return (unmarshalArgsFailure, st)
      else do
        let p ← (f.meth (shrAll f.args u).1 w st : Option ((Int32 × f.res.Val) × σ))
        f.res.shl p.1.2
        return (p.1.1, p.2) := rfl
  rw [hfn] at hm
  by_cases hdone : (shrAll f.args u).2.okdone = true
  · rw [if_neg (by simp [hdone])] at hm
    rcases hmeth : f.meth (shrAll f.args u).1 w st with _ | ⟨⟨ret',r⟩,st''⟩
    · rw [hmeth] at hm
      cases hm
    · rw [hmeth] at hm
      change ((f.res.shl r (Marshall.init (fun _ => 0))).bind fun p =>
        some ((ret', st''), p.2)) = _ at hm
      obtain ⟨⟨_,m₁⟩,hm₁,heq⟩ := Option.bind_eq_some_iff.mp hm
      cases heq
      obtain ⟨hbody,hlt⟩ := (puts_shl _ _).body hm₁
      refine ⟨hdone, r, rfl, hbody, ?_⟩
      rw [hbody]
      exact hlt
  · rw [if_pos (by simp [hdone])] at hm
    cases hm
    exact absurd rfl hb

/-- Arguments of the types the method expects arrive as they were passed. -/
theorem args_spec (hu : Holds u (encodeAll vs)) (htypes : vs.map Sigma.fst = f.args) :
    (shrAll f.args u).1 = vs := by
  rw [← htypes, reads_shrAll vs u hu]

/-- A reply body that a method's result was marshalled into gives the caller that result. -/
theorem callM_spec {t : Ty} {x : t.Val} {intret : Int32} (hlt : (t.encode x).length < 2^31)
    (hret : 0 ≤ intret) {r : t.Val} (hr : t.Resets r) :
    callM t intret (.ofBuf (t.encode x)) r = some (intret, x) := by
  have hnot : ¬ intret < 0 := Int32.not_lt.mpr hret
  rw [callM_eq (ofBuf_holds hlt) (Nat.zero_add _) hnot, (decoded_eq_iff t r x).mpr hr]

/-- The `unmarshall` of the caller takes over the whole reply PDU (`take_in`). A result is read from
it as from the body alone. -/
theorem callM_takeIn {t : Ty} {x : t.Val} {h : ReplyHeader} {intret : Int32} {b : Bytes}
    (hb : b = replyBuf h (t.encode x)) (hlt : b.length < 2^31) (hret : 0 ≤ intret) (r : t.Val) :
    callM t intret (Unmarshall.unpackReplyHeader (.ofBuf b)).2.takeIn r =
      callM t intret (.ofBuf (t.encode x)) r := by
  have hnot : ¬ intret < 0 := Int32.not_lt.mpr hret
  have hlen : b.length = rpcHeaderSz+(t.encode x).length := by rw [hb, replyBuf_length]
  have htake : (Unmarshall.unpackReplyHeader (.ofBuf b)).2.takeIn =
      { Unmarshall.ofBuf b with ind := rpcHeaderSz } := by
    unfold Unmarshall.ofBuf
    rw [unpackReplyHeader_replyBuf hb hlt]
    simp [Unmarshall.takeIn, hlen]
  have hholds : Holds { Unmarshall.ofBuf b with ind := rpcHeaderSz } (t.encode x) := by
    let area := List.replicate rpcSz 0 ++ encodeHeader (.reply h) ++ List.replicate 12 0
    have hall : Holds (.ofBuf b) (area ++ t.encode x) := by
      rw [List.append_assoc, List.append_assoc, ← replyBuf, ← hb]
      exact ofBuf_holds hlt
    have harea : area.length = rpcHeaderSz := rfl
    have hrest := hall.append_right
    rw [harea] at hrest
    exact hrest
  rw [htake, callM_eq hholds hlen.symm hnot,
    callM_eq (ofBuf_holds (by omega)) (Nat.zero_add _) hnot]

end

end DisconnectedYfs.RPC
