import DisconnectedYfs.YFSLockClient
import Mathlib.Logic.Function.Basic

/-! The protocol of a single lock, as it is meant to run: who the lock server takes for the owner,
who waits, and for each client the one activity, if any, that is busy with the lock. Nothing here
mentions threads' stacks or other locks; the system is shown to follow this protocol in a later
module. -/
namespace DisconnectedYfs.YFS

/-- Who is busy with a lock at a client: one of its threads, or its revoke handler, called for the
acquire request of thread `T` of client `B`. -/
inductive Agent where
  | thread (T : ℕ)
  | handler (B T : ℕ)
deriving DecidableEq, Repr

/-- What it is doing: its request is on its way (`asking`), held up at the server by a revoke
(`serving`), answered `RETRY` (`refused`) or `OK` (`granted`); it sleeps until a retry; it is in the
conflict branch before (`resolving`) or after (`dropped`) removing the conflicting copy; it has the
lock, with or without having read the extent, or is loading the extent; it is about to release
(`leaving`), its release is on its way (`releasing`) or answered (`released`). -/
inductive Role where
  | asking | serving | refused | sleeping | granted | resolving | dropped
  | holding (read : Bool)
  | loading (read : Bool) (buf : Str)
  | leaving | releasing | released
deriving DecidableEq, Repr

/-- One client's side of the lock, with its cached copy of the extent. -/
structure Party where
  offline : Bool
  state : LState
  stale : Bool
  copy : Option Entry
  agent : Option (Agent × Role)

/-- The lock states that go with an activity. -/
def Party.Fits (p : Party) : Prop :=
  match p.agent with
  | none =>
    (p.state = .none ∨ p.state = .free) ∧ (p.offline = true → p.state = .free → p.stale = false)
  | some (.handler _ _, r) =>
    (r = .releasing ∨ r = .released) ∧ p.offline = false ∧ p.state = .freeRls ∧ p.stale = false
  | some (.thread _, r) =>
    match r with
    | .asking => p.offline = false ∧ p.state = .acquiring
    | .serving | .refused | .sleeping =>
      p.offline = false ∧ (p.state = .acquiring ∨ p.state = .waiting)
    | .granted | .resolving | .dropped =>
      p.offline = false ∧ (p.state = .acquiring ∨ p.state = .releasing ∧ p.stale = false)
    | .holding _ | .loading _ _ | .leaving =>
      p.state = .locked ∨ p.offline = false ∧ p.state = .releasing ∧ p.stale = false
    | .releasing | .released => p.offline = false ∧ p.state = .releasing ∧ p.stale = false

/-- The client has the lock as far as its own state tells. -/
def Party.Owns (p : Party) : Prop :=
  p.offline = false ∧
  match p.agent with
  | none => p.state = .free ∧ p.stale = false
  | some (_, r) =>
    match r with
    | .granted | .resolving | .dropped | .releasing => True
    | .holding _ | .loading _ _ | .leaving => p.stale = false
    | _ => False

/-- How many retries the server still owes the client: one from its `RETRY` answer until
`retry_handler` has run. -/
def Party.due (p : Party) : ℕ :=
  match p.agent with
  | some (_, .serving) | some (_, .refused) => if p.state = .acquiring then 1 else 0
  | some (_, .sleeping) => if p.state = .waiting then 1 else 0
  | _ => 0

/-- The client knows that it has to give the lock back. -/
def Party.Urgent (p : Party) : Prop := p.state = .releasing ∨ p.state = .freeRls

/-- `touch`, `rename` and the like leave the contents, the version and the dirty mark. -/
def Entry.Same (e e' : Entry) : Prop :=
  e'.dirty = e.dirty ∧ e'.extent = e.extent ∧ e'.attr.version = e.attr.version

/-- `compare_version` would return true. -/
def Entry.Agrees (e : Entry) : Option FInfo → Prop
  | none => e.attr.version = 0
  | some f => f.a.version = e.attr.version

/-- What a flush makes of the server's extent. -/
def Flushes (copy : Option Entry) (x x' : Option FInfo) : Prop :=
  (copy = none ∧ x' = none) ∨
  (∃ e, copy = some e ∧ e.dirty = false ∧ x' = x) ∨
  (∃ e f', copy = some e ∧ e.dirty = true ∧ x' = some f' ∧ f'.buf = e.extent ∧
    ((x = none ∧ f'.a.version = 1) ∨
      ∃ f, x = some f ∧ e.attr.version = f.a.version ∧ f'.a.version = f.a.version+1))

/-- Marks of the steps that some runs are required to avoid or that a result depends on: the
conflict branch is entered, or acts; the application writes a buffer or calls `release`, having
read the extent or not; `unlink` removes a copy; `release_wo` begins; the loop of
`disconnect(false)` gets a lock. -/
inductive Kind where
  | plain | conflict | resolve | unlinked | left | rejoin
  | wrote (read : Bool) (buf : Str)
  | quit (read : Bool)
deriving DecidableEq, Repr

/-- How the lock's new holder starts: an application, or conflict resolution, that has not read
the extent, or the reconnect loop, which releases at once. -/
def Role.Fresh (k : Kind) (r : Role) : Prop :=
  k = .plain ∧ r = .holding false ∨ k = .rejoin ∧ r = .leaving

/-- What one client can do by itself, with its cached copy and the server's extent. -/
inductive PartyStep : Kind → Party → Option FInfo → Party → Option FInfo → Prop
  | reconnect {s sl cp g x} :
      PartyStep .plain ⟨true, s, sl, cp, g⟩ x ⟨false, s, sl || s ≠ .none, cp, g⟩ x
  | ask {o s sl cp x T} (h : s = .none ∧ o = false ∨ s = .free ∧ sl = true) :
      PartyStep .plain ⟨o, s, sl, cp, none⟩ x ⟨o, .acquiring, sl, cp, some (.thread T, .asking)⟩ x
  | take {o cp x T k r} (h : Role.Fresh k r) :
      PartyStep k ⟨o, .free, false, cp, none⟩ x ⟨o, .locked, false, cp, some (.thread T, r)⟩ x
  | sleep {sl cp x T} :
      PartyStep .plain ⟨false, .acquiring, sl, cp, some (.thread T, .refused)⟩ x
        ⟨false, .waiting, sl, cp, some (.thread T, .sleeping)⟩ x
  | again {sl cp x T} :
      PartyStep .plain ⟨false, .waiting, sl, cp, some (.thread T, .refused)⟩ x
        ⟨false, .acquiring, sl, cp, some (.thread T, .asking)⟩ x
  | wake {s sl cp x T} (h : s ≠ .waiting) :
      PartyStep .plain ⟨false, s, sl, cp, some (.thread T, .sleeping)⟩ x
        ⟨false, s, sl, cp, some (.thread T, .asking)⟩ x
  | grant {s cp x T k r} (h : Role.Fresh k r) (hs : s ≠ .releasing) :
      PartyStep k ⟨false, s, false, cp, some (.thread T, .granted)⟩ x
        ⟨false, .locked, false, cp, some (.thread T, r)⟩ x
  -- a stale lock comes back: nothing cached, a clean copy dropped, or a dirty one still current
  | grantStale {s cp cp' x T k r} (h : Role.Fresh k r)
      (hc : cp' = none ∨ ∃ e, cp = some e ∧ cp' = some e ∧ e.Agrees x) :
      PartyStep k ⟨false, s, true, cp, some (.thread T, .granted)⟩ x
        ⟨false, .locked, false, cp', some (.thread T, r)⟩ x
  -- a revoke overtook the grant
  | grantRevoked {sl cp x T k r} (h : Role.Fresh k r) :
      PartyStep k ⟨false, .releasing, sl, cp, some (.thread T, .granted)⟩ x
        ⟨false, .releasing, sl, cp, some (.thread T, r)⟩ x
  | conflict {s cp x T} :
      PartyStep .conflict ⟨false, s, true, cp, some (.thread T, .granted)⟩ x
        ⟨false, s, true, cp, some (.thread T, .resolving)⟩ x
  | drop {o s sl cp x T} :
      PartyStep .resolve ⟨o, s, sl, cp, some (.thread T, .resolving)⟩ x
        ⟨o, s, sl, none, some (.thread T, .dropped)⟩ x
  | resolved {o s sl cp x T k r} (h : Role.Fresh k r) :
      PartyStep .resolve ⟨o, s, sl, cp, some (.thread T, .dropped)⟩ x
        ⟨o, .locked, false, cp, some (.thread T, r)⟩ x
  | leave {o s sl cp x T read} :
      PartyStep (.quit read) ⟨o, s, sl, cp, some (.thread T, .holding read)⟩ x
        ⟨o, s, sl, cp, some (.thread T, .leaving)⟩ x
  | free {o cp x T} :
      PartyStep .left ⟨o, .locked, false, cp, some (.thread T, .leaving)⟩ x
        ⟨o, .free, false, cp, none⟩ x
  | forget {o cp x T} :
      PartyStep .left ⟨o, .locked, true, cp, some (.thread T, .leaving)⟩ x
        ⟨o, .none, true, cp, none⟩ x
  | flush {cp x x' T} (h : Flushes cp x x') :
      PartyStep .left ⟨false, .releasing, false, cp, some (.thread T, .leaving)⟩ x
        ⟨false, .releasing, false, none, some (.thread T, .releasing)⟩ x'
  | done {o s sl cp x T} :
      PartyStep .plain ⟨o, s, sl, cp, some (.thread T, .released)⟩ x ⟨o, .none, sl, cp, none⟩ x
  | read {o s sl e e' x T read} (h : e.Same e') :
      PartyStep .plain ⟨o, s, sl, some e, some (.thread T, .holding read)⟩ x
        ⟨o, s, sl, some e', some (.thread T, .holding true)⟩ x
  | absent {o s sl T read} :
      PartyStep .plain ⟨o, s, sl, none, some (.thread T, .holding read)⟩ none
        ⟨o, s, sl, none, some (.thread T, .holding true)⟩ none
  | load {o s sl f T read} :
      PartyStep .plain ⟨o, s, sl, none, some (.thread T, .holding read)⟩ (some f)
        ⟨o, s, sl, none, some (.thread T, .loading read f.buf)⟩ (some f)
  | loaded {o s sl cp e f T read buf} (hd : e.dirty = false) (hb : e.extent = buf)
      (hv : e.attr.version = f.a.version) :
      PartyStep .plain ⟨o, s, sl, cp, some (.thread T, .loading read buf)⟩ (some f)
        ⟨o, s, sl, some e, some (.thread T, .holding true)⟩ (some f)
  | put {o s sl cp e x T read buf} (hd : e.dirty = true) (hb : e.extent = buf)
      (hv : e.attr.version = (cp.map (·.attr.version)).getD 0) :
      PartyStep (.wrote read buf) ⟨o, s, sl, cp, some (.thread T, .holding read)⟩ x
        ⟨o, s, sl, some e, some (.thread T, .holding read)⟩ x
  | unlinkRemove {o s sl cp g x} : PartyStep .unlinked ⟨o, s, sl, cp, g⟩ x ⟨o, s, sl, none, g⟩ x
  -- conflict resolution on the extent itself, and on the two it holds for the copy
  | touch {o s sl e e' x T} (h : e.Same e') :
      PartyStep .resolve ⟨o, s, sl, some e, some (.thread T, .resolving)⟩ x
        ⟨o, s, sl, some e', some (.thread T, .resolving)⟩ x
  | fetch {o s sl cp e f T r} (hr : r = .resolving ∨ ∃ read, r = .holding read)
      (hd : e.dirty = false) (hv : e.attr.version = f.a.version) :
      PartyStep .resolve ⟨o, s, sl, cp, some (.thread T, r)⟩ (some f)
        ⟨o, s, sl, some e, some (.thread T, r)⟩ (some f)
  | probed {o s sl e e' x T read} (h : e.Same e') :
      PartyStep .resolve ⟨o, s, sl, some e, some (.thread T, .holding read)⟩ x
        ⟨o, s, sl, some e', some (.thread T, .leaving)⟩ x
  | copy {o s sl cp e x T} (hd : e.dirty = true)
      (hv : e.attr.version = (cp.map (·.attr.version)).getD 0) :
      PartyStep .resolve ⟨o, s, sl, cp, some (.thread T, .holding true)⟩ x
        ⟨o, s, sl, some e, some (.thread T, .holding true)⟩ x

/-- The lock as the server and all clients see it. `pending B` counts the retries on their way to
`B`, and `mark B T` lists the revokes that the request of thread `T` of `B` is waiting for. -/
structure LockView where
  owner : Option ℕ
  waiting : List ℕ
  pending : ℕ → ℕ
  party : ℕ → Party
  mark : ℕ → ℕ → List (ℕ × Phase)
  extent : Option FInfo

def LockView.setParty (v : LockView) (A : ℕ) (p : Party) : LockView :=
  { v with party := Function.update v.party A p }

def LockView.setAgent (v : LockView) (A : ℕ) (g : Option (Agent × Role)) : LockView :=
  v.setParty A { v.party A with agent := g }

def LockView.setMark (v : LockView) (B T : ℕ) (m : List (ℕ × Phase)) : LockView :=
  { v with mark := Function.update v.mark B (Function.update (v.mark B) T m) }

/-- The server takes the lock back and tells every waiter to retry. -/
def LockView.freed (v : LockView) : LockView :=
  { v with owner := none, waiting := [], pending := fun B => v.pending B+v.waiting.count B }

inductive LockEvent where
  | party (A : ℕ) (k : Kind)
  | serve
  | revoke (o : ℕ)
  | release | revoked | retry
  | disconnect (A : ℕ)
deriving DecidableEq, Repr

inductive LockStep : LockEvent → LockView → LockView → Prop
  | party {v A k p x} (h : PartyStep k (v.party A) v.extent p x) :
      LockStep (.party A k) v { v.setParty A p with extent := x }
  | grant {v A T} (ha : (v.party A).agent = some (.thread T, .asking)) (ho : v.owner = none) :
      LockStep .serve v
        { v.setAgent A (some (.thread T, .granted)) with owner := some A, waiting := [] }
  | wait {v A T o} (ha : (v.party A).agent = some (.thread T, .asking)) (ho : v.owner = some o)
      (hw : v.waiting ≠ []) :
      LockStep .serve v
        { v.setAgent A (some (.thread T, .refused)) with waiting := v.waiting.insert A }
  | firstWait {v A T o} (ha : (v.party A).agent = some (.thread T, .asking))
      (ho : v.owner = some o) (hw : v.waiting = []) :
      LockStep .serve v
        { (v.setAgent A (some (.thread T, .serving))).setMark A T [(o, .sent)] with
          waiting := [A] }
  | revokeBusy {v B T o} (hm : v.mark B T = [(o, .sent)])
      (hs : (v.party o).state = .acquiring ∨ (v.party o).state = .waiting ∨
        (v.party o).state = .locked) :
      LockStep (.revoke o) v
        (((v.setParty o { v.party o with state := .releasing, stale := false }).setAgent B
          (some (.thread T, .refused))).setMark B T [])
  | revokeFree {v B T o cp x} (hm : v.mark B T = [(o, .sent)])
      (ho : v.party o = ⟨false, .free, false, cp, none⟩) (hx : Flushes cp v.extent x) :
      LockStep (.revoke o) v
        { (v.setParty o ⟨false, .freeRls, false, none, some (.handler B T, .releasing)⟩).setMark B T
            [(o, .releasing)] with extent := x }
  | release {v A T} (ha : (v.party A).agent = some (.thread T, .releasing))
      (ho : v.owner = some A) :
      LockStep .release v (v.freed.setAgent A (some (.thread T, .released)))
  | handlerRelease {v B T o} (ha : (v.party o).agent = some (.handler B T, .releasing))
      (ho : v.owner = some o) :
      LockStep .release v
        ((v.freed.setAgent o (some (.handler B T, .released))).setMark B T [(o, .released)])
  | revoked {v B T o} (ha : (v.party o).agent = some (.handler B T, .released))
      (hB : (v.party B).agent = some (.thread T, .serving)) :
      LockStep .revoked v
        (((v.setParty o { v.party o with state := .none, agent := none }).setAgent B
          (some (.thread T, .refused))).setMark B T [])
  | retry {v B s} (hp : 0 < v.pending B)
      (hs : (v.party B).state = .acquiring ∧ s = .waiting ∨
        (v.party B).state = .waiting ∧ s = .acquiring) :
      LockStep .retry v
        { v.setParty B { v.party B with state := s } with
          pending := Function.update v.pending B (v.pending B-1) }
  | disconnect {v A} (ho : v.owner = some A) :
      LockStep (.disconnect A) v
        (v.freed.setParty A
          { v.party A with offline := true, state := (v.party A).state.offline })
  | disconnectOther {v A} (ho : v.owner ≠ some A) :
      LockStep (.disconnect A) v
        (v.setParty A { v.party A with offline := true, state := (v.party A).state.offline })

end DisconnectedYfs.YFS
