import DisconnectedYfs.YFSLockClient
import DisconnectedYfs.TraceSystem

/-! The whole system: the clients, the lock server with the requests, revokes and retries in
flight, and the extent server. An acquire or release request is in flight from the step that
sends it, and may be served, and its reply received, at any later step; so requests of different
threads overtake one another, and so do their replies, revokes and retries. -/
namespace DisconnectedYfs.YFS
open Std

/-- One proof for every test whether a pair is in a list. -/
instance pair_lawful : LawfulBEq (ℕ × ℕ) := inferInstance

/-- `retries` are the retry RPCs that the server's `retry_wrapper` threads still have to make, as
lock and client, and `dangling` those of threads that `disconnect_server` has started. A server that
aborts or crashes serves nothing more. -/
structure Sys where
  clients : ExtTreeMap ℕ Client := ∅
  lockTable : LockTable := ∅
  retries : List (ℕ × ℕ) := []
  dangling : List (ℕ × ℕ) := []
  lockServerUp : Bool := true
  table : Table := ∅
  extentServerUp : Bool := true
  now : UInt32 := 0

def Sys.client (s : Sys) (A : ℕ) : Client := s.clients[A]?.getD {}

def Sys.thread (s : Sys) (A T : ℕ) : Thread := (s.client A).thread T

def Sys.setClient (s : Sys) (A : ℕ) (c : Client) : Sys :=
  { s with clients := s.clients.insert A c }

def Sys.setCalls (s : Sys) (A T : ℕ) (calls : List Call) : Sys :=
  s.setClient A ((s.client A).setCalls T calls)

/-- What can happen next. `serve` is the lock server's handler of the request of a thread;
`revoke`, `serveRevoked` and `revoked` are the parts of `revoke_handler` at the owner for the
acquire request of thread `T` of `B`: up to its release RPC, that RPC at the server, and the rest;
`retry` is `retry_handler` at `B`; `disconnect` is `disconnect(true)`, whose `disconnect_server`
RPC runs while the client's mutex is held. -/
inductive Event where
  | client (A T : ℕ) (m : Move)
  | serve (A T : ℕ)
  | revoke (B T : ℕ)
  | serveRevoked (B T : ℕ)
  | revoked (B T : ℕ)
  | retry (lid B : ℕ)
  | disconnect (A : ℕ)
  | clock (now : UInt32)
deriving DecidableEq, Repr

/-- `lock_server_cache::release(lid, id)`, called by a request of thread `T` of `B`, whose stack
is `calls` afterwards. -/
def Sys.serveRelease (s : Sys) (lid id B T : ℕ) (calls : List Call) : Sys :=
  match s.lockTable.release lid id with
  | none => { s with lockServerUp := false }
  | some p =>
    { (s.setCalls B T calls) with
      lockTable := p.1, retries := s.retries ++ p.2.map (fun w => (lid, w)) }

def Sys.serve (s : Sys) (A T : ℕ) : Option Sys :=
  match (s.thread A T).calls with
  | .acquire lid .call :: rest =>
    let p := s.lockTable.acquire lid A
    let pc := match p.2.2 with
      | some owner => .revoking owner .sent
      | none => .reply p.2.1
    some { (s.setCalls A T (.acquire lid pc :: rest)) with lockTable := p.1 }
  | .release lid .call :: rest => some (s.serveRelease lid A A T (.release lid .reply :: rest))
  | _ => none

/-- `lock_client_cache::revoke_handler`, up to its release RPC if it makes one. A `DISCONNECTED`
answer fails the `VERIFY` of `send_revoke`. -/
def Sys.revoke (s : Sys) (B T : ℕ) : Option Sys :=
  match (s.thread B T).calls with
  | .acquire lid (.revoking o .sent) :: rest =>
    let c := s.client o
    let l := c.lock lid
    let answered (state : LState) :=
      (s.setClient o (c.setLock lid state false)).setCalls B T
        (.acquire lid (.reply .retry) :: rest)
    if c.aborted || c.lcMutex ≠ none then none
    else if c.disconnected then some { s with lockServerUp := false }
    else match l.state with
      | .acquiring | .waiting | .locked => some (answered .releasing)
      | .free =>
        if c.ecMutex ≠ none || !s.extentServerUp then none
        else match c.localExtent.flush s.table lid s.now with
          | none => some { s with extentServerUp := false }
          | some p =>
            some { (s.setClient o ((c.setLock lid .freeRls false).setCache p.1)).setCalls B T
              (.acquire lid (.revoking o .releasing) :: rest) with table := p.2 }
      | st => some (answered st)
  | _ => none

def Sys.serveRevoked (s : Sys) (B T : ℕ) : Option Sys :=
  match (s.thread B T).calls with
  | .acquire lid (.revoking o .releasing) :: rest =>
    some (s.serveRelease lid o B T (.acquire lid (.revoking o .released) :: rest))
  | _ => none

/-- The end of `revoke_handler` after its release RPC; the revoke is answered, and with it the
acquire request that caused it. -/
def Sys.revoked (s : Sys) (B T : ℕ) : Option Sys :=
  match (s.thread B T).calls with
  | .acquire lid (.revoking o .released) :: rest =>
    let c := s.client o
    if c.aborted || c.lcMutex ≠ none then none
    else some ((s.setClient o (c.setLock lid .none (c.lock lid).stale)).setCalls B T
      (.acquire lid (.reply .retry) :: rest))
  | _ => none

/-- `retry_wrapper` and `lock_client_cache::retry_handler`. A `DISCONNECTED` answer fails a `VERIFY`
of `retry_wrapper`; a thread with a dangling pointer reads a destroyed set, and deletes it. -/
def Sys.retry (s : Sys) (lid B : ℕ) : Option Sys :=
  let c := s.client B
  let l := c.lock lid
  if (lid, B) ∉ s.retries ∨ c.aborted ∨ c.lcMutex ≠ none then none
  else if c.disconnected ∨ (lid, B) ∈ s.dangling then some { s with lockServerUp := false }
  else
    let state := match l.state with
      | .acquiring => .waiting
      | .waiting => .acquiring
      | st => st
    some { (s.setClient B (c.setLock lid state l.stale)) with retries := s.retries.erase (lid, B) }

/-- `disconnect(true)` with its `disconnect_server` RPC, whose retry threads get pointers into a
vector that is destroyed when it returns. -/
def Sys.disconnect (s : Sys) (A : ℕ) : Option Sys :=
  let c := s.client A
  if c.aborted ∨ c.lcMutex ≠ none ∨ c.disconnected then none
  else
    let p := s.lockTable.disconnectServer A
    some { (s.setClient A c.goOffline) with
      lockTable := p.1
      retries := s.retries ++ p.2.flatMap (fun r => r.2.map (fun w => (r.1, w)))
      dangling := s.dangling ++ p.2.flatMap (fun r => r.2.map (fun w => (r.1, w))) }

/-- One step of the system; `none` is an event that cannot happen now. -/
def Sys.step (s : Sys) : Event → Option Sys
  | .client A T m =>
    let c := s.client A
    if c.aborted || !s.extentServerUp then none
    else match c.move s.table s.now T m with
      | none => none
      | some (.done c' t) => some { (s.setClient A c') with table := t }
      | some .abort => some (s.setClient A { c with aborted := true })
      | some .serverAbort => some { s with extentServerUp := false }
  | .serve A T => if s.lockServerUp then s.serve A T else none
  | .revoke B T => if s.lockServerUp then s.revoke B T else none
  | .serveRevoked B T => if s.lockServerUp then s.serveRevoked B T else none
  | .revoked B T => if s.lockServerUp then s.revoked B T else none
  | .retry lid B => if s.lockServerUp then s.retry lid B else none
  | .disconnect A => if s.lockServerUp then s.disconnect A else none
  | .clock now => some { s with now := now }

/-- Runs start with empty servers and clients that hold nothing. -/
def Sys.init : Sys := {}

abbrev Sys.run : List Event → Option Sys := TraceSystem.run Sys.step Sys.init

end DisconnectedYfs.YFS
