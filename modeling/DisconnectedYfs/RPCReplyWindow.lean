import Std.Data.ExtTreeMap
import DisconnectedYfs.TraceSystem

/-! The server side of at-most-once RPC (`rpc/rpc.cc`): the window of remembered requests that
`rpcs` keeps for each client nonce, and the two functions that change it. Transaction ids are
`unsigned int` values that are only ever compared, so they are natural numbers here. -/
namespace DisconnectedYfs.RPC
open Std TraceSystem

abbrev Bytes := List UInt8

/-- `rpcs::reply_t`. The buffer is valid once `cbPresent` is set. It may stand for what it points at
or for the address. -/
structure Reply (β : Type := Bytes) where
  xid : ℕ
  cbPresent : Bool := false
  buf : Option β := none
  sz : ℕ := 0
deriving DecidableEq, Repr

/-- `rpcs::rpcstate_t`; `DONE` carries the `*b` and `*sz` it returns. -/
inductive RpcState (β : Type := Bytes) where
  | new
  | inProgress
  | done (b : Option β) (sz : ℕ)
  | forgotten
deriving DecidableEq, Repr

/-- The at-most-once tables of `rpcs`. -/
structure Rpcs (β : Type := Bytes) where
  replyWindow : ExtTreeMap ℕ (List (Reply β)) := ∅
  highestXidRep : ExtTreeMap ℕ ℕ := ∅

section
variable {β : Type}

/-- `reply_window_[clt_nonce]`, which is empty for a client that was never seen. -/
def Rpcs.window (s : Rpcs β) (n : ℕ) : List (Reply β) := s.replyWindow[n]?.getD []

/-- `highest_xid_rep_[clt_nonce]`. -/
def Rpcs.highest (s : Rpcs β) (n : ℕ) : ℕ := s.highestXidRep[n]?.getD 0

/-- The `while` loop of `checkduplicate_and_update`: what it leaves in front of the iterator and
what the iterator points at when the loop ends. -/
def scan (xid xidRep : ℕ) : List (Reply β) → List (Reply β) × List (Reply β)
  | [] => ([], [])
  | r :: rs =>
    if r.xid < xid then
      if r.xid ≤ xidRep then scan xid xidRep rs
      else (r :: (scan xid xidRep rs).1, (scan xid xidRep rs).2)
    else ([], r :: rs)

/-- The classification after the loop. `front` is the list before the iterator, `rest` the list
from it on; the new window comes with the verdict. -/
def classify (xid : ℕ) (front rest : List (Reply β)) : List (Reply β) × RpcState β :=
  match rest with
  | [] => (front ++ [{ xid := xid }], .new)
  | r :: rs =>
    if r.xid > xid then (front ++ { xid := xid } :: r :: rs, .new)
    else if r.cbPresent then (front ++ r :: rs, .done r.buf r.sz)
    else (front ++ r :: rs, .inProgress)

/-- `rpcs::checkduplicate_and_update`; `none` is a failed `VERIFY(xid_rep < xid)`. On an empty
window the iterator was taken before the `push_back`, so it is the end of the list and the loop
does not see the entry just added. -/
def checkduplicateAndUpdate (s : Rpcs β) (n : ℕ) (xid xidRep : ℕ) :
    Option (Rpcs β × RpcState β) :=
  if xidRep < xid then
    let empty := s.window n = []
    let front : List (Reply β) := if empty then [{ xid := xid }] else []
    let h0 := if empty then xidRep else s.highest n
    let h := if xidRep > h0 then xidRep else h0
    if xid < h then
      some ({ replyWindow := s.replyWindow.insert n (front ++ s.window n),
              highestXidRep := s.highestXidRep.insert n h }, .forgotten)
    else
      let p := scan xid xidRep (s.window n)
      let c := classify xid (front ++ p.1) p.2
      some ({ replyWindow := s.replyWindow.insert n c.1,
              highestXidRep := s.highestXidRep.insert n h }, c.2)
  else none

/-- The first entry for `xid` gets the reply; `none` when the loop runs off the list, where the
code reads past the end. -/
def fillReply (xid : ℕ) (b : β) (sz : ℕ) : List (Reply β) → Option (List (Reply β))
  | [] => none
  | r :: rs =>
    if r.xid = xid then some ({ r with buf := some b, sz := sz, cbPresent := true } :: rs)
    else (fillReply xid b sz rs).map (r :: ·)

/-- `rpcs::add_reply`; `none` is a failed `VERIFY`. -/
def addReply (s : Rpcs β) (n : ℕ) (xid : ℕ) (b : β) (sz : ℕ) : Option (Rpcs β) :=
  if 0 < n then
    (fillReply xid b sz (s.window n)).map
      (fun w => { s with replyWindow := s.replyWindow.insert n w })
  else none

/-- The at-most-once part of `rpcs::dispatch`: a client with nonce 0 bypasses the window. -/
def dispatchCheck (s : Rpcs β) (n : ℕ) (xid xidRep : ℕ) :
    Option (Rpcs β × RpcState β) :=
  if n ≠ 0 then checkduplicateAndUpdate s n xid xidRep else some (s, .new)

end

/-- What can happen to the tables: a request PDU reaches `dispatch`, or a handler finishes. -/
inductive Event where
  | request (n : ℕ) (xid xidRep : ℕ)
  | reply (n : ℕ) (xid : ℕ) (b : Bytes) (sz : ℕ)
deriving DecidableEq, Repr

def step (s : Rpcs) : Event → Option Rpcs
  | .request n xid xidRep => (dispatchCheck s n xid xidRep).map Prod.fst
  | .reply n xid b sz => addReply s n xid b sz

/-- `dispatch` runs the handler exactly for the requests it classifies `NEW`. -/
def executes (s : Rpcs) (n : ℕ) (xid : ℕ) : Event → Bool
  | .request n' xid' xidRep =>
    n' == n && xid' == xid && (dispatchCheck s n' xid' xidRep).map Prod.snd == some .new
  | .reply .. => false

/-- How often the handler of request `(n, xid)` is run along a sequence of events. -/
def executions (n : ℕ) (xid : ℕ) : Rpcs → List Event → ℕ
  | _, [] => 0
  | s, e :: es =>
    (if executes s n xid e then 1 else 0) +
      match step s e with
      | some s' => executions n xid s' es
      | none => 0

end DisconnectedYfs.RPC
