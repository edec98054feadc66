import DisconnectedYfs.OrderedMap
import DisconnectedYfs.RPCReplyWindow

/-! The wire format of RPC messages (`rpc/marshall.h`, the marshalling part of `rpc/rpc.cc`, and
the operators of `extent_protocol.h`). A buffer is memory that is filled byte by byte, and what
was never written holds whatever the allocator left there. `_capa` and `_ind` are `int`: a growth
that would pass `2^31` overflows and has no result. -/
namespace DisconnectedYfs.RPC
open OrderedMap

abbrev Mem := ℕ → UInt8

/-- The `n` bytes of memory from `a` on. -/
def slice (b : Mem) (a n : ℕ) : Bytes := (List.range' a n).map b

/-- `sizeof(rpc_sz_t)`. -/
def rpcSz : ℕ := 4

/-- `RPC_HEADER_SZ`: the larger of the two headers and the size field, without a checksum. -/
def rpcHeaderSz : ℕ := 20+rpcSz

structure ReqHeader where
  xid : Int32
  proc : Int32
  cltNonce : UInt32
  srvNonce : UInt32
  xidRep : Int32
deriving DecidableEq, Repr

structure ReplyHeader where
  xid : Int32
  ret : Int32
deriving DecidableEq, Repr

/-- `class marshall`. -/
structure Marshall where
  buf : Mem
  capa : ℕ
  ind : ℕ

abbrev Packing := StateT Marshall Option

namespace Marshall

/-- The constructor, with `DEFAULT_RPC_SZ` bytes of fresh memory. -/
def init (mem : Mem) : Marshall := { buf := mem, capa := 1024, ind := rpcHeaderSz }

/-- `realloc` to `capa` bytes, which keeps what the buffer holds. -/
def realloc (capa : ℕ) : Packing Unit := fun m =>
  if capa < 2^31 then some ((), { m with capa := capa }) else none

/-- `memcpy(_buf+_ind, p, n)` and the advance of `_ind`. A store outside the allocated bytes has
no result. -/
def store (p : Bytes) : Packing Unit := fun m =>
  if m.ind+p.length ≤ m.capa then
    some ((), { m with
      buf := fun i => if m.ind ≤ i then p.getD (i-m.ind) (m.buf i) else m.buf i,
      ind := m.ind+p.length })
  else none

def rawbyte (x : UInt8) : Packing Unit := do
  let m ← get
  if m.ind ≥ m.capa then
    realloc (m.capa*2)
  store [x]

def rawbytes (p : Bytes) : Packing Unit := do
  let m ← get
  if m.ind+p.length ≥ 2^31 then
    failure
  if m.ind+p.length > m.capa then
    realloc (if m.capa > p.length then 2*m.capa else m.capa+p.length)
  store p

def shlUChar (x : UInt8) : Packing Unit := rawbyte x

def shlBool (x : Bool) : Packing Unit := rawbyte x.toUInt8

def shlChar (x : Int8) : Packing Unit := shlUChar x.toUInt8

def shlUShort (x : UInt16) : Packing Unit := do
  rawbyte ((x >>> 8) &&& 0xff).toUInt8
  rawbyte (x &&& 0xff).toUInt8

def shlShort (x : Int16) : Packing Unit := shlUShort x.toUInt16

/-- Network order is big-endian. -/
def shlUInt (x : UInt32) : Packing Unit := do
  rawbyte ((x >>> 24) &&& 0xff).toUInt8
  rawbyte ((x >>> 16) &&& 0xff).toUInt8
  rawbyte ((x >>> 8) &&& 0xff).toUInt8
  rawbyte (x &&& 0xff).toUInt8

def shlInt (x : Int32) : Packing Unit := shlUInt x.toUInt32

def shlString (s : Bytes) : Packing Unit := do
  shlUInt (UInt32.ofNat s.length)
  rawbytes s

def shlULongLong (x : UInt64) : Packing Unit := do
  shlUInt (x >>> 32).toUInt32
  shlUInt x.toUInt32

/-- The shifts of an `int` are arithmetic. -/
def pack (x : Int32) : Packing Unit := do
  rawbyte ((x >>> 24) &&& 0xff).toUInt32.toUInt8
  rawbyte ((x >>> 16) &&& 0xff).toUInt32.toUInt8
  rawbyte ((x >>> 8) &&& 0xff).toUInt32.toUInt8
  rawbyte (x &&& 0xff).toUInt32.toUInt8

def packReqHeader (h : ReqHeader) : Packing Unit := do
  let saved := (← get).ind
  modify ({ · with ind := rpcSz })
  pack h.xid
  pack h.proc
  pack h.cltNonce.toInt32
  pack h.srvNonce.toInt32
  pack h.xidRep
  modify ({ · with ind := saved })

def packReplyHeader (h : ReplyHeader) : Packing Unit := do
  let saved := (← get).ind
  modify ({ · with ind := rpcSz })
  pack h.xid
  pack h.ret
  modify ({ · with ind := saved })

end Marshall

/-- `class unmarshall`: the buffer, its size and the read position. -/
structure Unmarshall where
  buf : Mem
  sz : ℕ
  ind : ℕ := 0
  ok : Bool := true

abbrev Unpacking := StateM Unmarshall

namespace Unmarshall

/-- `take_in`: the buffer of another object, read from behind the header. -/
def takeIn (other : Unmarshall) : Unmarshall :=
  { buf := other.buf, sz := other.sz, ind := rpcHeaderSz, ok := decide (other.sz ≥ rpcHeaderSz) }

def okdone (u : Unmarshall) : Bool := u.ok && u.ind == u.sz

/-- A `char` is returned as an `unsigned int`, so a byte from `0x80` on is sign-extended. -/
def rawbyte : Unpacking UInt32 := fun u =>
  if u.ind ≥ u.sz then (0, { u with ok := false })
  else ((u.buf u.ind).toInt8.toInt32.toUInt32, { u with ind := u.ind+1 })

/-- The sum `_ind+n` is an `unsigned int`. -/
def rawbytes (ss : Bytes) (n : UInt32) : Unpacking Bytes := fun u =>
  if (u.ind+n.toNat) % 2^32 > u.sz then (ss, { u with ok := false })
  else (slice u.buf u.ind n.toNat, { u with ind := (u.ind+n.toNat) % 2^32 })

def shrBool : Unpacking Bool := do
  return (← rawbyte) != 0

def shrUChar : Unpacking UInt8 := do
  return (← rawbyte).toUInt8

def shrChar : Unpacking Int8 := do
  return (← rawbyte).toUInt8.toInt8

def shrUShort : Unpacking UInt16 := do
  let mut x := (((← rawbyte) &&& 0xff) <<< 8).toUInt16
  x := x ||| ((← rawbyte) &&& 0xff).toUInt16
  return x

def shrShort : Unpacking Int16 := do
  let mut x := (((← rawbyte) &&& 0xff) <<< 8).toUInt16.toInt16
  x := x ||| ((← rawbyte) &&& 0xff).toUInt16.toInt16
  return x

def shrUInt : Unpacking UInt32 := do
  let mut x := ((← rawbyte) &&& 0xff) <<< 24
  x := x ||| ((← rawbyte) &&& 0xff) <<< 16
  x := x ||| ((← rawbyte) &&& 0xff) <<< 8
  x := x ||| ((← rawbyte) &&& 0xff)
  return x

def shrInt : Unpacking Int32 := do
  let mut x := (((← rawbyte) &&& 0xff) <<< 24).toInt32
  x := x ||| (((← rawbyte) &&& 0xff) <<< 16).toInt32
  x := x ||| (((← rawbyte) &&& 0xff) <<< 8).toInt32
  x := x ||| ((← rawbyte) &&& 0xff).toInt32
  return x

def shrULongLong : Unpacking UInt64 := do
  let h ← shrUInt
  let l ← shrUInt
  return l.toUInt64 ||| (h.toUInt64 <<< 32)

/-- The destination keeps its old value when the length could not be read. -/
def shrString (s : Bytes) : Unpacking Bytes := do
  let sz ← shrUInt
  if (← get).ok then rawbytes s sz else return s

def unpack : Unpacking Int32 := shrInt

def unpackReqHeader : Unpacking ReqHeader := do
  modify ({ · with ind := rpcSz })
  let xid ← unpack
  let proc ← unpack
  let cltNonce ← unpack
  let srvNonce ← unpack
  let xidRep ← unpack
  modify ({ · with ind := rpcHeaderSz })
  return ⟨xid, proc, cltNonce.toUInt32, srvNonce.toUInt32, xidRep⟩

def unpackReplyHeader : Unpacking ReplyHeader := do
  modify ({ · with ind := rpcSz })
  let xid ← unpack
  let ret ← unpack
  modify ({ · with ind := rpcHeaderSz })
  return ⟨xid, ret⟩

end Unmarshall

/-- `extent_protocol::attr` with all its fields set. -/
structure WireAttr where
  atime : UInt32
  mtime : UInt32
  ctime : UInt32
  size : UInt32
  version : UInt32
  name : Bytes
deriving DecidableEq, Repr

def WireAttr.shl (a : WireAttr) : Packing Unit := do
  Marshall.shlUInt a.atime
  Marshall.shlUInt a.mtime
  Marshall.shlUInt a.ctime
  Marshall.shlUInt a.size
  Marshall.shlUInt a.version
  Marshall.shlString a.name

def WireAttr.shr (a : WireAttr) : Unpacking WireAttr := do
  let atime ← Unmarshall.shrUInt
  let mtime ← Unmarshall.shrUInt
  let ctime ← Unmarshall.shrUInt
  let size ← Unmarshall.shrUInt
  let version ← Unmarshall.shrUInt
  let name ← Unmarshall.shrString a.name
  return ⟨atime, mtime, ctime, size, version, name⟩

/-- The types a message can hold. -/
inductive Ty where
  | bool | char | uchar | short | ushort | int | uint | ulonglong | string | attr
  | vector (t : Ty)
  | map (k v : Ty)
deriving DecidableEq, Repr

/-- What a type is made of: its values, its `operator<`, and a newly declared variable. The
scalar fields of such a variable are indeterminate; no operator reads them. -/
structure Sem where
  Val : Type
  order : Order Val
  fresh : Val

/-- Strings compare as sequences of `unsigned char`. No map has `attr` keys, as the source gives
it no `operator<`. -/
def Ty.sem : Ty → Sem
  | .bool => ⟨Bool, .ofKey (fun x => x.toNat), false⟩
  | .char => ⟨Int8, .ofKey Int8.toInt, 0⟩
  | .uchar => ⟨UInt8, .ofKey (fun x => x.toNat), 0⟩
  | .short => ⟨Int16, .ofKey Int16.toInt, 0⟩
  | .ushort => ⟨UInt16, .ofKey (fun x => x.toNat), 0⟩
  | .int => ⟨Int32, .ofKey Int32.toInt, 0⟩
  | .uint => ⟨UInt32, .ofKey (fun x => x.toNat), 0⟩
  | .ulonglong => ⟨UInt64, .ofKey (fun x => x.toNat), 0⟩
  | .string => ⟨Bytes, (Order.ofKey (fun x : UInt8 => x.toNat)).list, []⟩
  | .attr => ⟨WireAttr, .trivial, ⟨0, 0, 0, 0, 0, []⟩⟩
  | .vector t => ⟨List t.sem.Val, t.sem.order.list, []⟩
  | .map k v => ⟨OMap k.sem.order v.sem.Val, OMap.order k.sem.order v.sem.order, OMap.empty⟩

abbrev Ty.Val (t : Ty) : Type := t.sem.Val

/-- `operator<<`. -/
def Ty.shl : (t : Ty) → t.Val → Packing Unit
  | .bool, x => Marshall.shlBool x
  | .char, x => Marshall.shlChar x
  | .uchar, x => Marshall.shlUChar x
  | .short, x => Marshall.shlShort x
  | .ushort, x => Marshall.shlUShort x
  | .int, x => Marshall.shlInt x
  | .uint, x => Marshall.shlUInt x
  | .ulonglong, x => Marshall.shlULongLong x
  | .string, x => Marshall.shlString x
  | .attr, x => WireAttr.shl x
  | .vector t, (v : List t.Val) => do
    Marshall.shlUInt (UInt32.ofNat v.length)
    v.forM t.shl
  | .map k v, (d : OMap k.sem.order v.Val) => do
    Marshall.shlUInt (UInt32.ofNat d.1.length)
    d.1.forM (fun x => do
      k.shl x.1
      v.shl x.2)

/-- A counting loop that carries the variable being filled. -/
def iterate {α : Type} (body : α → Unpacking α) : ℕ → α → Unpacking α
  | 0, x => return x
  | n+1, x => do
    let x' ← body x
    iterate body n x'

/-- `operator>>`, which is given the old value of the variable. A vector is appended to. -/
def Ty.shr : (t : Ty) → t.Val → Unpacking t.Val
  | .bool, _ => Unmarshall.shrBool
  | .char, _ => Unmarshall.shrChar
  | .uchar, _ => Unmarshall.shrUChar
  | .short, _ => Unmarshall.shrShort
  | .ushort, _ => Unmarshall.shrUShort
  | .int, _ => Unmarshall.shrInt
  | .uint, _ => Unmarshall.shrUInt
  | .ulonglong, _ => Unmarshall.shrULongLong
  | .string, x => Unmarshall.shrString x
  | .attr, x => WireAttr.shr x
  | .vector t, (v : List t.Val) => do
    let n ← Unmarshall.shrUInt
    iterate (fun (v : List t.Val) => do
      let z ← t.shr t.sem.fresh
      return v ++ [z]) n.toNat v
  | .map k v, _ => do
    let n ← Unmarshall.shrUInt
    iterate (fun (d : OMap k.sem.order v.Val) => do
      let a ← k.shr k.sem.fresh
      let b ← v.shr v.sem.fresh
      return d.insert a b) n.toNat OMap.empty

/-- A value of some supported type. -/
abbrev Value := (t : Ty) × t.Val

/-- `m << v1 << v2 << ...`. -/
def shlAll (vs : List Value) : Packing Unit := vs.forM (fun v => v.1.shl v.2)

/-- `u >> x1 >> x2 >> ...` into newly declared variables of the given types. -/
def shrAll : List Ty → Unpacking (List Value)
  | [] => return []
  | t :: ts => do
    let x ← t.shr t.sem.fresh
    let xs ← shrAll ts
    return ⟨t, x⟩ :: xs

/-- Either header a message starts with. -/
inductive Header where
  | req (h : ReqHeader)
  | reply (h : ReplyHeader)
deriving DecidableEq, Repr

def Header.pack : Header → Packing Unit
  | .req h => Marshall.packReqHeader h
  | .reply h => Marshall.packReplyHeader h

/-- Which header a receiver expects. -/
inductive HeaderKind where
  | req
  | reply
deriving DecidableEq, Repr

def Header.kind : Header → HeaderKind
  | .req _ => .req
  | .reply _ => .reply

def unpackHeader : HeaderKind → Unpacking Header
  | .req => Header.req <$> Unmarshall.unpackReqHeader
  | .reply => Header.reply <$> Unmarshall.unpackReplyHeader

end DisconnectedYfs.RPC
