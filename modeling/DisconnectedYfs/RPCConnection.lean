import DisconnectedYfs.RPCWireFormat

/-! A TCP connection that carries PDUs (`rpc/connection.cc`). Both ends are `connection` objects;
one direction of the byte stream is modelled, and what happens in the other shows only as a
connection that dies. Each step is what one thread does while it holds `m_`. What the kernel
answers to `write` and `read` is part of the step's label. -/
namespace DisconnectedYfs.RPC

/-- `MAX_PDU`. -/
def maxPdu : ℤ := 10*2^20

/-- What callers hand to `connection::send`: at least a header, and a size that is an `int`. -/
structure Pdu where
  bytes : Bytes
  header : rpcHeaderSz ≤ bytes.length
  int : bytes.length < 2^31

/-- `connection::charbuf`. While reading, `buf` has the bytes received so far. -/
structure Charbuf where
  buf : Option Bytes := none
  sz : ℤ := 0
  solong : ℤ := 0
deriving DecidableEq, Repr

/-- Where a thread inside `send` has given up `m_`: on `send_wait_`, on `send_complete_`, or to
call `block_remove_fd` after a failed write. -/
inductive SendPc where
  | waiting (p : Pdu)
  | completing
  | removing

structure Connection where
  dead : Bool := false
  wpdu : Charbuf := {}
  rpdu : Charbuf := {}
  pc : ℕ → Option SendPc := fun _ => none

/-- The result of `write`: a count, or -1 together with whether `errno` is `EAGAIN`. -/
inductive WriteResult where
  | wrote (n : ℕ)
  | failed (again : Bool)
deriving DecidableEq, Repr

/-- The result of `read`: a positive count, 0 or -1. The last two come with whether `errno` is
`EAGAIN`, which after an end of file is left from an earlier call. -/
inductive ReadResult where
  | data (n : ℕ)
  | eof (again : Bool)
  | failed (again : Bool)
deriving DecidableEq, Repr

namespace Connection

/-- `writepdu`: the new state, the bytes that went out and the returned value; `none` is a failed
`VERIFY` or an answer that `write` cannot give. -/
def writepdu (w : WriteResult) (k : Connection) : Option (Connection × Bytes × Bool) :=
  let pdu := k.wpdu
  if pdu.solong < 0 then none
  else if pdu.solong = pdu.sz then some (k, [], true)
  else
    let b := pdu.buf.getD []
    -- the size goes into the first four bytes before the first of them is written
    let b := if pdu.solong = 0 then be32 (UInt32.ofNat pdu.sz.toNat) ++ b.drop rpcSz else b
    let k := { k with wpdu := { pdu with buf := some b } }
    match w with
    | .failed again =>
      if again then some (k, [], true)
      else some ({ k with wpdu := { buf := some b, sz := 0, solong := -1 } }, [], false)
    | .wrote n =>
      if (n : ℤ) ≤ pdu.sz-pdu.solong then
        some ({ k with wpdu := { buf := some b, sz := pdu.sz, solong := pdu.solong+n } },
          (b.drop pdu.solong.toNat).take n, true)
      else none

/-- The end of `send`. -/
def finish (t : ℕ) (k : Connection) : Connection :=
  { k with wpdu := {}, pc := Function.update k.pc t none }

/-- `send` from the test of its first loop on. The thread waits, gives up, or owns `wpdu_` and
writes; the last component tells whether it took `wpdu_`. -/
def send (t : ℕ) (p : Pdu) (w : WriteResult) (k : Connection) :
    Option (Connection × Bytes × Bool) :=
  if k.dead then some ({ k with pc := Function.update k.pc t none }, [], false)
  else if k.wpdu.buf.isSome then
    some ({ k with pc := Function.update k.pc t (some (.waiting p)) }, [], false)
  else
    let k := { k with wpdu := { buf := some p.bytes, sz := p.bytes.length, solong := 0 } }
    (writepdu w k).map (fun (k, out, ok) =>
      if !ok then
        ({ k with dead := true, pc := Function.update k.pc t (some .removing) }, out, true)
      else if k.wpdu.solong = k.wpdu.sz then (finish t k, out, true)
      else ({ k with pc := Function.update k.pc t (some .completing) }, out, true))

/-- A thread that waits on `send_complete_` wakes up and tests its loop again. -/
def wakeComplete (t : ℕ) (k : Connection) : Connection :=
  if !k.dead ∧ k.wpdu.solong ≥ 0 ∧ k.wpdu.solong < k.wpdu.sz then k else finish t k

/-- `write_cb`. -/
def writeCb (w : WriteResult) (k : Connection) : Option (Connection × Bytes) :=
  if k.dead then none
  else if k.wpdu.sz = 0 then some (k, [])
  else
    (writepdu w k).map (fun (k, out, ok) => (if ok then k else { k with dead := true }, out))

/-- `ntohl` of the four bytes of a size, as a signed `int`. -/
def ntohl (b : Bytes) : ℤ :=
  ((b.getD 0 0).toUInt32 <<< 24 ||| (b.getD 1 0).toUInt32 <<< 16
    ||| (b.getD 2 0).toUInt32 <<< 8 ||| (b.getD 3 0).toUInt32).toInt32.toInt

/-- A `read` of at most `want` bytes of the stream `avail` gives one or more of them. -/
def canRead (avail : Bytes) (want n : ℕ) : Bool := 1 ≤ n ∧ n ≤ avail.length ∧ n ≤ want

/-- The second part of `readpdu`, which reads into the buffer. The length passed to `read` is a
`size_t`. The number of bytes taken off the stream comes with the result. -/
def readBody (avail : Bytes) (r : ReadResult) (k : Connection) : Option (Connection × ℕ × Bool) :=
  let pdu := k.rpdu
  let giveUp (again : Bool) : Option (Connection × ℕ × Bool) :=
    if again then some (k, 0, true) else some ({ k with rpdu := {} }, 0, false)
  match r with
  | .eof again => giveUp again
  | .failed again => giveUp again
  | .data n =>
    if canRead avail ((pdu.sz-pdu.solong) % 2^64).toNat n then
      some ({ k with rpdu :=
        { pdu with buf := some (pdu.buf.getD [] ++ avail.take n), solong := pdu.solong+n } },
        n, true)
    else none

/-- The argument of `malloc` for a PDU of this size, which is a `size_t`. -/
def allocSize (sz : ℤ) : ℕ := ((sz+rpcSz) % 2^64).toNat

/-- `readpdu`; the first result is used only if a new PDU begins. An allocation of more than
`PTRDIFF_MAX` bytes fails, which a `VERIFY` tests. -/
def readpdu (avail : Bytes) (r₁ r₂ : ReadResult) (k : Connection) :
    Option (Connection × ℕ × Bool) :=
  if k.rpdu.sz = 0 then
    match r₁ with
    | .eof _ => some (k, 0, false)
    | .failed again => if again then none else some (k, 0, false)
    | .data n =>
      if canRead avail rpcSz n then
        let sz := ntohl (avail.take rpcSz)
        if n ≠ rpcSz then some (k, n, false)
        else if sz > maxPdu then some (k, n, false)
        else if k.rpdu.buf.isSome then none
        else if allocSize sz ≥ 2^63 then none
        else
          let k := { k with rpdu := { buf := some (avail.take rpcSz), sz := sz, solong := rpcSz } }
          (readBody (avail.drop rpcSz) r₂ k).map (fun (k, m, ok) => (k, n+m, ok))
      else none
  else readBody avail r₂ k

/-- `read_cb`, where `accept` is what `got_pdu` answers. Besides the state and the number of
bytes read it returns what `got_pdu` consumed: the buffer and its size. -/
def readCb (avail : Bytes) (r₁ r₂ : ReadResult) (accept : Bool) (k : Connection) :
    Option (Connection × ℕ × Option (Bytes × ℤ)) :=
  if k.dead then some (k, 0, none)
  else
    let res := if k.rpdu.buf.isNone ∨ k.rpdu.solong < k.rpdu.sz then readpdu avail r₁ r₂ k
      else some (k, 0, true)
    res.map (fun (k, n, succ) =>
      let k := if succ then k else { k with dead := true }
      match k.rpdu.buf with
      | some b =>
        if k.rpdu.sz = k.rpdu.solong ∧ accept then
          ({ k with rpdu := {} }, n, some (b, k.rpdu.sz))
        else (k, n, none)
      | none => (k, n, none))

/-- Another thread finds the connection broken, or `closeconn` is called. -/
def die (k : Connection) : Connection := { k with dead := true }

end Connection

/-- Two ends and the stream between them. `sent` are the PDUs that were given to `wpdu_`, in that
order; `wire` is all that was written and `taken` how much of it was read; `accepted` is what the
receiver's `got_pdu` consumed. -/
structure Link where
  sender : Connection := {}
  receiver : Connection := {}
  wire : Bytes := []
  taken : ℕ := 0
  sent : List Pdu := []
  accepted : List (Bytes × ℤ) := []

inductive LinkEvent where
  | send (t : ℕ) (p : Pdu) (w : WriteResult)
  | wakeSend (t : ℕ) (w : WriteResult)
  | wakeComplete (t : ℕ)
  | removed (t : ℕ)
  | writeCb (w : WriteResult)
  | readCb (r₁ r₂ : ReadResult) (accept : Bool)
  | senderDies
  | receiverDies

namespace Link

def doSend (l : Link) (t : ℕ) (p : Pdu) (w : WriteResult) : Option Link :=
  (l.sender.send t p w).map (fun (k, out, took) =>
    { l with sender := k, wire := l.wire ++ out, sent := if took then l.sent ++ [p] else l.sent })

/-- Condition variables may wake any waiting thread at any time, since every wait is inside a
loop. -/
def step (l : Link) : LinkEvent → Option Link
  | .send t p w => if (l.sender.pc t).isNone then l.doSend t p w else none
  | .wakeSend t w =>
    match l.sender.pc t with
    | some (.waiting p) => l.doSend t p w
    | _ => none
  | .wakeComplete t =>
    match l.sender.pc t with
    | some .completing => some { l with sender := l.sender.wakeComplete t }
    | _ => none
  | .removed t =>
    match l.sender.pc t with
    | some .removing => some { l with sender := l.sender.finish t }
    | _ => none
  | .writeCb w =>
    (l.sender.writeCb w).map (fun (k, out) => { l with sender := k, wire := l.wire ++ out })
  | .readCb r₁ r₂ accept =>
    (l.receiver.readCb (l.wire.drop l.taken) r₁ r₂ accept).map (fun (k, n, got) =>
      { l with receiver := k, taken := l.taken+n, accepted := l.accepted ++ got.toList })
  | .senderDies => some { l with sender := l.sender.die }
  | .receiverDies => some { l with receiver := l.receiver.die }

end Link
end DisconnectedYfs.RPC
