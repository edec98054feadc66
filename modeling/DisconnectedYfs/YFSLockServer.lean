import Std.Data.ExtTreeMap
import Mathlib.Data.Nat.Basic
import Mathlib.Data.List.Basic
import Mathlib.Algebra.Group.Nat.Defs
import Mathlib.Algebra.Group.Int.Defs

/-! The lock protocol's vocabulary (`lock_protocol.h`) and the caching lock server's handlers
(`lock_server_cache.cc`). A client id is a number; the empty owner string is `none`. -/
namespace DisconnectedYfs.YFS
open Std

/-- `lock_protocol::state`. -/
inductive LState where
  | none | acquiring | waiting | free | locked | releasing | freeRls
deriving DecidableEq, Repr

/-- The values of `lock_protocol::xxstatus` that the lock client and server use. -/
inductive Status where
  | ok | retry | disconnected
deriving DecidableEq, Repr

/-- What `lock_server_cache::acquire` answers. -/
inductive Reply where
  | ok | retry
deriving DecidableEq, Repr

def Reply.status : Reply → Status
  | .ok => .ok
  | .retry => .retry

/-- `lockinfo`, one lock as the server sees it. -/
structure LockInfo where
  locked : Bool := false
  owner : Option ℕ := none
  waiting : List ℕ := []
deriving DecidableEq, Repr

/-- `lock_server_cache::lock_status_`. -/
abbrev LockTable := ExtTreeMap ℕ LockInfo

def LockTable.info (t : LockTable) (lid : ℕ) : LockInfo := t[lid]?.getD {}

/-- `lock_server_cache::acquire` up to the `send_revoke`: the new table, the reply, and the owner
to be revoked, if this request is the first to wait. -/
def LockTable.acquire (t : LockTable) (lid id : ℕ) : LockTable × Reply × Option ℕ :=
  let i := t.info lid
  if i.locked then
    (t.insert lid { i with waiting := i.waiting.insert id }, .retry,
      if i.waiting = [] then i.owner else none)
  else (t.insert lid { locked := true, owner := some id, waiting := [] }, .ok, none)

/-- `lock_server_cache::release`: the new table and the `waiting` set of the retry thread; `none`
is the failed `VERIFY` on the owner. -/
def LockTable.release (t : LockTable) (lid id : ℕ) : Option (LockTable × List ℕ) :=
  if (t.info lid).owner = some id then some (t.insert lid {}, (t.info lid).waiting) else none

/-- `lock_server_cache::disconnect_server`: every lock of `id` is freed, and each that had waiters
gets a retry thread. -/
def LockTable.disconnectServer (t : LockTable) (id : ℕ) : LockTable × List (ℕ × List ℕ) :=
  (t.map (fun _ i => if i.owner = some id then {} else i),
   t.toList.filterMap (fun p =>
     if p.2.owner = some id ∧ p.2.waiting ≠ [] then some (p.1, p.2.waiting) else none))

@[simp] theorem info_insert (t : LockTable) (lid l : ℕ) (i : LockInfo) :
    LockTable.info (t.insert lid i) l = if lid = l then i else t.info l := by
  simp only [LockTable.info, ExtTreeMap.getElem?_insert, LawfulEqCmp.compare_eq_iff_eq]
  split_ifs <;> rfl

theorem info_disconnectServer (t : LockTable) (id l : ℕ) :
    (t.disconnectServer id).1.info l =
      if (t.info l).owner = some id then {} else t.info l := by
  simp only [LockTable.disconnectServer, LockTable.info, ExtTreeMap.getElem?_map]
  rcases Option.eq_none_or_eq_some t[l]? with h | ⟨i,h⟩ <;> simp [h]

end DisconnectedYfs.YFS
