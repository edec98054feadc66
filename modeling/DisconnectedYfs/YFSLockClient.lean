import DisconnectedYfs.YFSLockServer
import DisconnectedYfs.YFSExtentCache
import DisconnectedYfs.YFSDirectory

/-! One client process (`lock_client_cache.cc`, and `extent_user` of `extent_client_cache.cc`).
Each thread carries the stack of its pending calls, innermost first. A step is what a thread does
between two points at which another thread, a message handler or a server can be seen to act:
between taking and giving up the mutex of the lock client, and up to one RPC at a time. -/
namespace DisconnectedYfs.YFS
open Std

/-- `lock_client_cache::lockstate`. -/
structure LockState where
  state : LState := .none
  stale : Bool := false
deriving DecidableEq, Repr

/-- `lock_client_cache::lock_status_`; reading an absent lock gives the default entry. -/
abbrev LockMap := ExtTreeMap ℕ LockState

def LockMap.entry (m : LockMap) (lid : ℕ) : LockState := m[lid]?.getD {}

/-- How far the server's `send_revoke` has come: on its way, in the owner's handler with the
release RPC under way, or in that handler with the release done. -/
inductive Phase where
  | sent | releasing | released
deriving DecidableEq, Repr

/-- Where an `acquire_wo` is. In `revoking` the server's handler of the request waits for the
owner's answer to a revoke. -/
inductive AcquirePc where
  | start | check | waiting | call
  | revoking (owner : ℕ) (p : Phase)
  | reply (r : Reply)
  | waitRetry
deriving DecidableEq, Repr

inductive ReleasePc where
  | start | call | reply
deriving DecidableEq, Repr

/-- Where the conflict branch of `lock_acquired` is, with `new_lid` and `tmp_lid` once they are
known. `fetch` is `get_helper` between its two RPCs, called from the stage it carries. -/
inductive Stage where
  | draw | acquireNew
  | probe (n : ℕ)
  | releaseNew
  | acquireTmp (n : ℕ)
  | copy (n tmp : ℕ)
  | readTmp (n tmp : ℕ) (name : Str)
  | enter (n tmp : ℕ) (name dir : Str)
  | drop (n tmp : ℕ)
  | releaseTmp (n : ℕ)
  | releaseCopy
  | fetch (buf : Str) (caller : Stage)
deriving DecidableEq, Repr

/-- The calls on a cached extent that load it first. -/
inductive Access where
  | get | getattr | rename (name : Str)
deriving DecidableEq, Repr

/-- One pending call of a thread. `load` is `get_helper` between its two RPCs, called by the
application, whose hold of the lock it carries. -/
inductive Call where
  | acquire (lid : ℕ) (pc : AcquirePc)
  | release (lid : ℕ) (pc : ReleasePc)
  | resolve (lid : ℕ) (stage : Stage)
  | reconnect (after : Option ℕ)
  | load (eid : ℕ) (read : Bool) (buf : Str) (op : Access)
deriving DecidableEq, Repr

/-- `held` are the locks between a return of `acquire` and the matching `release`, each with
whether the extent has been read in this section; `unlinking` is the file that `unlink` has yet
to remove. -/
structure Thread where
  calls : List Call := []
  held : List (ℕ × Bool) := []
  unlinking : Option ℕ := none
deriving DecidableEq, Repr

/-- The two mutexes are named by the thread that holds them. -/
structure Client where
  threads : ExtTreeMap ℕ Thread := ∅
  lockStatus : LockMap := ∅
  disconnected : Bool := false
  lcMutex : Option ℕ := none
  localExtent : Cache := ∅
  ecMutex : Option ℕ := none
  aborted : Bool := false

def Client.thread (c : Client) (T : ℕ) : Thread := c.threads[T]?.getD {}

def Client.lock (c : Client) (lid : ℕ) : LockState := c.lockStatus.entry lid

def Client.setThread (c : Client) (T : ℕ) (th : Thread) : Client :=
  { c with threads := c.threads.insert T th }

def Client.setCalls (c : Client) (T : ℕ) (calls : List Call) : Client :=
  c.setThread T ⟨calls, (c.thread T).held, (c.thread T).unlinking⟩

def Client.setLock (c : Client) (lid : ℕ) (state : LState) (stale : Bool) : Client :=
  { c with lockStatus := c.lockStatus.insert lid ⟨state, stale⟩ }

def Client.setCache (c : Client) (cache : Cache) : Client := { c with localExtent := cache }

def Client.setLcMutex (c : Client) (m : Option ℕ) : Client := { c with lcMutex := m }

def Client.setEcMutex (c : Client) (m : Option ℕ) : Client := { c with ecMutex := m }

/-- The extent cache's mutex is free, or already held by the thread. -/
def Client.ecFree (c : Client) (T : ℕ) : Bool := c.ecMutex = none || c.ecMutex = some T

/-- How a step ends: with a new client and extent table, with a failed `VERIFY` or an uncaught
exception in the client, or with the extent server's failed version check. -/
inductive Outcome where
  | done (c : Client) (t : Table)
  | abort
  | serverAbort

/-- What the caller does when `acquire_wo(lid)` returns `r`: `acquire` gives the mutex back, and
its caller goes on unless the result is `DISCONNECTED`; the conflict branch ignores the result
for `new_lid` and wants `OK` for the directory; so does the loop of `disconnect(false)`. -/
def Client.acquireDone (c : Client) (t : Table) (T lid : ℕ) (r : Status) : List Call → Outcome
  | [] =>
    let th := c.thread T
    .done ((c.setThread T ⟨[], if r = .disconnected then th.held else (lid, false) :: th.held,
      th.unlinking⟩).setLcMutex none) t
  | .resolve l .acquireNew :: rest => .done (c.setCalls T (.resolve l (.probe lid) :: rest)) t
  | .resolve l (.acquireTmp n) :: rest =>
    if r = .ok then .done (c.setCalls T (.resolve l (.copy n lid) :: rest)) t else .abort
  | .reconnect k :: rest =>
    if r = .ok then .done (c.setCalls T (.release lid .start :: .reconnect k :: rest)) t
    else .abort
  | _ => .abort

/-- `lock_client_cache::lock_acquired` up to the conflict branch; `none` waits for the extent
cache. -/
def Client.lockAcquired (c : Client) (t : Table) (T lid : ℕ) (rest : List Call) :
    Option Outcome :=
  let locked (c : Client) := (c.setLock lid .locked false).acquireDone t T lid .ok rest
  if (c.lock lid).stale then
    if c.ecFree T then
      match c.localExtent[lid]? with
      | none => some (locked c)
      | some e =>
        if e.dirty then
          match compareVersion e t lid with
          | none => some .abort
          | some true => some (locked c)
          | some false => some (.done (c.setCalls T (.resolve lid .draw :: rest)) t)
        else some (locked (c.setCache (c.localExtent.erase lid)))
    else none
  else some (locked c)

/-- `acquire_wo` before its first RPC: the checks on entry, then the wait loop and the choice
between taking the cached lock and asking the server. -/
def Client.acquireEnter (c : Client) (t : Table) (T lid : ℕ) (rest : List Call) : Outcome :=
  let s := (c.lock lid).state
  if c.disconnected && (s = .releasing || s = .freeRls) then .abort
  else .done (c.setCalls T (.acquire lid .check :: rest)) t

def Client.acquireCheck (c : Client) (t : Table) (T lid : ℕ) (rest : List Call) : Outcome :=
  let s := c.lock lid
  if s.state ≠ .none ∧ s.state ≠ .free then
    .done ((c.setCalls T (.acquire lid .waiting :: rest)).setLcMutex none) t
  else if c.disconnected ∧ s.state = .none then c.acquireDone t T lid .disconnected rest
  else if s.stale ∨ s.state = .none then
    .done (((c.setLock lid .acquiring s.stale).setCalls T (.acquire lid .call :: rest)).setLcMutex
      none) t
  else (c.setLock lid .locked s.stale).acquireDone t T lid .ok rest

/-- `acquire_wo` after the RPC returned `r` and the mutex was taken again. The server itself never
answers `DISCONNECTED`. -/
def Client.acquireReply (c : Client) (t : Table) (T lid : ℕ) (r : Reply) (rest : List Call) :
    Option Outcome :=
  let s := c.lock lid
  if c.disconnected then
    some ((c.setLock lid .none s.stale).acquireDone t T lid .disconnected rest)
  else match s.state, r with
    | .acquiring, .ok | .waiting, .ok => c.lockAcquired t T lid rest
    | .acquiring, .retry =>
      some (.done (((c.setLock lid .waiting s.stale).setCalls T
        (.acquire lid .waitRetry :: rest)).setLcMutex none) t)
    | .waiting, .retry =>
      some (.done (((c.setLock lid .acquiring s.stale).setCalls T
        (.acquire lid .call :: rest)).setLcMutex none) t)
    | _, _ => some (c.acquireDone t T lid r.status rest)

/-- What the caller does when `release_wo` returns: the conflict branch draws another number,
releases the copy, or ends `lock_acquired` and with it the outer `acquire_wo`. -/
def Client.releaseDone (c : Client) (t : Table) (T : ℕ) : List Call → Outcome
  | [] => .done ((c.setCalls T []).setLcMutex none) t
  | .resolve l .releaseNew :: rest => .done (c.setCalls T (.resolve l .draw :: rest)) t
  | .resolve l (.releaseTmp n) :: rest =>
    .done (c.setCalls T (.release n .start :: .resolve l .releaseCopy :: rest)) t
  | .resolve l .releaseCopy :: rest => (c.setLock l .locked false).acquireDone t T l .ok rest
  | .reconnect k :: rest => .done (c.setCalls T (.reconnect k :: rest)) t
  | _ => .abort

/-- `release_wo` up to its RPC. -/
def Client.releaseWo (c : Client) (t : Table) (now : UInt32) (T lid : ℕ) (rest : List Call) :
    Option Outcome :=
  let s := c.lock lid
  match s.state with
  | .locked =>
    some ((c.setLock lid (if s.stale then .none else .free) s.stale).releaseDone t T rest)
  | .releasing =>
    if s.stale || c.disconnected then some .abort
    else if c.ecFree T then
      match c.localExtent.flush t lid now with
      | none => some .serverAbort
      | some p => some (.done (((c.setCache p.1).setCalls T
          (.release lid .call :: rest)).setLcMutex none) p.2)
    else none
  | _ => some .abort

/-- Run `found` on the cached copy of `eid`. Without one, ask the extent server: `noent` if it has
none, else the first RPC of `get_helper` has been answered and the second is next. -/
def Client.withExtent (c : Client) (t : Table) (now : UInt32) (T l : ℕ) (rest : List Call)
    (stage : Stage) (eid : ℕ) (noent : Outcome) (found : Client → Entry → Outcome) :
    Option Outcome :=
  if c.ecFree T then
    match c.localExtent[eid]? with
    | some e => some (found (c.setEcMutex none) e)
    | none =>
      match t.get eid now with
      | none => some noent
      | some buf =>
        some (.done ((c.setCalls T (.resolve l (.fetch buf stage) :: rest)).setEcMutex (some T)) t)
  else none

/-- `lock_client_cache::get_rand_num` on the two values of `rand()`. -/
def randNum (a b : ℕ) : ℕ := ((a <<< 16) ||| b) &&& 0xFFFF

/-- The extent that a stage reads. -/
def Stage.target (l : ℕ) : Stage → Option ℕ
  | .probe n | .enter n _ _ _ => some n
  | .copy _ _ => some l
  | .readTmp _ tmp _ => some tmp
  | _ => none

/-- The conflict branch of `lock_acquired`, with `extent_user::remote_exists` and `make_copy`. -/
def Client.resolveStep (c : Client) (t : Table) (now : UInt32) (T a b l : ℕ) (rest : List Call)
    (stage : Stage) : Option Outcome :=
  match stage with
  | .draw =>
    some (.done (c.setCalls T
      (.acquire (randNum a b ||| 0x80000000) .start :: .resolve l .acquireNew :: rest)) t)
  | .probe n =>
    c.withExtent t now T l rest stage n
      (.done (c.setCalls T (.acquire 2 .start :: .resolve l (.acquireTmp n) :: rest)) t)
      (fun c _ => .done ((c.setCache (c.localExtent.touch n now)).setCalls T
        (.release n .start :: .resolve l .releaseNew :: rest)) t)
  | .copy n tmp =>
    c.withExtent t now T l rest stage l .abort (fun c e =>
      .done ((c.setCache ((c.localExtent.touch l now).put n e.extent now)).setCalls T
        (.resolve l (.readTmp n tmp e.attr.name) :: rest)) t)
  | .readTmp n tmp name =>
    c.withExtent t now T l rest stage tmp .abort (fun c e =>
      match addCopy e.extent name n with
      | none => .abort
      | some p => .done ((c.setCache (c.localExtent.touch tmp now)).setCalls T
          (.resolve l (.enter n tmp p.1 p.2) :: rest)) t)
  | .enter n tmp name dir =>
    c.withExtent t now T l rest stage n .abort (fun c _ =>
      .done ((c.setCache ((c.localExtent.setName n name).put tmp dir now)).setCalls T
        (.resolve l (.drop n tmp) :: rest)) t)
  | .drop n tmp =>
    if c.ecFree T then
      match c.localExtent.remove l with
      | none => some .abort
      | some cache => some (.done ((c.setCache cache).setCalls T
          (.release tmp .start :: .resolve l (.releaseTmp n) :: rest)) t)
    else none
  | .fetch buf caller =>
    match caller.target l with
    | none => none
    | some eid =>
      match t.getattr eid with
      | none => some .abort
      | some attr => some (.done ((c.setCache (c.localExtent.load eid buf attr)).setCalls T
          (.resolve l caller :: rest)) t)
  | _ => none

/-- The key at which an iterator over `lock_status_` stands after `k`. -/
def LockMap.nextKey (m : LockMap) (k : Option ℕ) : Option ℕ :=
  m.keys.find? (fun j => k.all (· < j))

/-- States that `disconnect(false)` does not expect. -/
def LState.busy (s : LState) : Bool :=
  s = .freeRls || s = .releasing || s = .waiting || s = .acquiring

/-- The second loop of `disconnect(false)`, and the assignment after it. -/
def Client.reconnectLoop (c : Client) (t : Table) (T : ℕ) (k : Option ℕ) (rest : List Call) :
    Outcome :=
  match c.lockStatus.nextKey k with
  | none => .done ((({ c with disconnected := false } : Client).setCalls T rest).setLcMutex none) t
  | some j =>
    if (c.lock j).state.busy then .abort
    else if (c.lock j).state = .none then .done (c.setCalls T (.reconnect (some j) :: rest)) t
    else .done (c.setCalls T (.acquire j .start :: .reconnect (some j) :: rest)) t

/-- One step of the thread that holds the lock client's mutex; `a` and `b` are what `rand()`
returns next. -/
def Client.turn (c : Client) (t : Table) (now : UInt32) (T a b : ℕ) : Option Outcome :=
  match (c.thread T).calls with
  | .acquire lid .start :: rest => some (c.acquireEnter t T lid rest)
  | .acquire lid .check :: rest => some (c.acquireCheck t T lid rest)
  | .release lid .start :: rest => c.releaseWo t now T lid rest
  | .resolve l stage :: rest => c.resolveStep t now T a b l rest stage
  | .reconnect k :: rest => some (c.reconnectLoop t T k rest)
  | _ => none

/-- A sleeping thread, or one whose RPC was answered, takes the mutex and goes on. Wake-ups
without a signal are allowed, as `pthread_cond_wait` allows them. -/
def Client.wake (c : Client) (t : Table) (T : ℕ) : Option Outcome :=
  match (c.thread T).calls with
  | .acquire lid .waiting :: rest =>
    some (.done ((c.setCalls T (.acquire lid .check :: rest)).setLcMutex (some T)) t)
  | .acquire lid (.reply r) :: rest => (c.setLcMutex (some T)).acquireReply t T lid r rest
  | .acquire lid .waitRetry :: rest =>
    if (c.lock lid).state = .waiting then none
    else some (.done (c.setCalls T (.acquire lid .call :: rest)) t)
  | .release lid .reply :: rest =>
    some (((c.setLcMutex (some T)).setLock lid .none (c.lock lid).stale).releaseDone t T rest)
  | _ => none

/-- The end of `get`, `getattr` and `rename` on a cached extent. -/
def Access.finish (op : Access) (c : Cache) (eid : ℕ) (now : UInt32) : Cache :=
  match op with
  | .get => c.touch eid now
  | .getattr => c
  | .rename name => c.setName eid name

/-- `yfs_client::isfile`. -/
def isfile (inum : ℕ) : Bool := inum &&& 0x80000000 ≠ 0

/-- What a thread of a client can do next. The application calls `acquire` and `release`, uses
extents whose lock it holds, and ends an `unlink` by removing the file after its lock was
released; `reconnect` is `disconnect(false)`. -/
inductive Move where
  | callAcquire (lid : ℕ)
  | callRelease (lid : ℕ) (unlink : Bool)
  | turn (a b : ℕ)
  | wake
  | access (lid : ℕ) (op : Access)
  | loadAttr
  | put (lid : ℕ) (buf : Str)
  | unlinkRemove (lid : ℕ)
  | reconnect
deriving DecidableEq, Repr

def Thread.idle (th : Thread) : Bool := th.calls = [] && th.unlinking = none

/-- The thread between a return of `acquire(lid)` and its `release(lid)`, with whether it has read
the extent. -/
def Thread.section? (th : Thread) (lid : ℕ) : Option Bool := th.held.lookup lid

def Thread.drop (th : Thread) (lid : ℕ) : List (ℕ × Bool) := th.held.filter (fun h => h.1 ≠ lid)

def Client.access (c : Client) (t : Table) (now : UInt32) (T lid : ℕ) (op : Access) :
    Option Outcome :=
  let th := c.thread T
  match th.section? lid with
  | none => none
  | some read =>
    if th.idle && c.ecMutex = none then
      let read' := (lid, true) :: th.drop lid
      match c.localExtent[lid]? with
      | some _ => some (.done ((c.setCache (op.finish c.localExtent lid now)).setThread T
          ⟨[], read', none⟩) t)
      | none =>
        match t.get lid now with
        | none => some (.done (c.setThread T ⟨[], read', none⟩) t)
        | some buf => some (.done
            ((c.setThread T ⟨[.load lid read buf op], th.drop lid, none⟩).setEcMutex
            (some T)) t)
    else none

def Client.loadAttr (c : Client) (t : Table) (now : UInt32) (T : ℕ) : Option Outcome :=
  let th := c.thread T
  match th.calls with
  | [.load lid _ buf op] =>
    match t.getattr lid with
    | none => some .abort
    | some attr =>
      some (.done (((c.setCache (op.finish (c.localExtent.load lid buf attr) lid now)).setThread T
        ⟨[], (lid, true) :: th.held, th.unlinking⟩).setEcMutex none) t)
  | _ => none

/-- What `disconnect(true)` makes of a lock's state. -/
def LState.offline : LState → LState
  | .releasing => .locked
  | .freeRls => .none
  | .waiting => .acquiring
  | st => st

/-- `lock_client_cache::disconnect(true)` after its RPC. -/
def Client.goOffline (c : Client) : Client :=
  { c with
    disconnected := true
    lockStatus := c.lockStatus.map (fun _ l => ⟨l.state.offline, l.stale⟩) }

/-- `disconnect(false)` up to its second loop. -/
def Client.reconnect (c : Client) (t : Table) (T : ℕ) : Outcome :=
  if c.lockStatus.toList.any (fun p => p.2.state.busy) then .abort
  else
    .done ((({ c with disconnected := false, lockStatus := c.lockStatus.map (fun _ s =>
        if s.state = .none then s else ⟨s.state, true⟩) } : Client).setCalls T
      [.reconnect none]).setLcMutex (some T)) t

/-- `none` is a move that is not possible now. -/
def Client.move (c : Client) (t : Table) (now : UInt32) (T : ℕ) : Move → Option Outcome
  | .callAcquire lid =>
    if (c.thread T).idle && c.lcMutex = none then
      some (.done ((c.setCalls T [.acquire lid .start]).setLcMutex (some T)) t)
    else none
  | .callRelease lid unlink =>
    let th := c.thread T
    match th.section? lid with
    | none => none
    | some _ =>
      if th.calls = [] && c.lcMutex = none && (!unlink || isfile lid && th.unlinking = none) then
        some (.done ((c.setThread T ⟨[.release lid .start], th.drop lid,
          if unlink then some lid else th.unlinking⟩).setLcMutex (some T)) t)
      else none
  | .turn a b => if c.lcMutex = some T then c.turn t now T a b else none
  | .wake => if c.lcMutex = none then c.wake t T else none
  | .access lid op => c.access t now T lid op
  | .loadAttr => c.loadAttr t now T
  | .put lid buf =>
    let th := c.thread T
    match th.section? lid with
    | none => none
    | some _ =>
      if th.idle && c.ecMutex = none then
        some (.done (c.setCache (c.localExtent.put lid buf now)) t)
      else none
  | .unlinkRemove lid =>
    let th := c.thread T
    if th.calls = [] && th.unlinking = some lid && c.ecMutex = none then
      match c.localExtent.remove lid with
      | none => some .abort
      | some cache => some (.done ((c.setCache cache).setThread T ⟨[], th.held, none⟩) t)
    else none
  | .reconnect =>
    if (c.thread T).idle && c.lcMutex = none && c.disconnected then some (c.reconnect t T) else none

end DisconnectedYfs.YFS
