import DisconnectedYfs.YFSLockProtocol

/-! What the stacks of a client's threads say about one lock, and the client's side of the lock
read off its state. -/
namespace DisconnectedYfs.YFS
open Std

def AcquirePc.roles : AcquirePc → List Role
  | .call => [.asking]
  | .revoking _ _ => [.serving]
  | .reply .ok => [.granted]
  | .reply .retry => [.refused]
  | .waitRetry => [.sleeping]
  | _ => []

def ReleasePc.role : ReleasePc → Role
  | .start => .leaving
  | .call => .releasing
  | .reply => .released

def Stage.role : Stage → Role
  | .releaseTmp _ | .releaseCopy => .dropped
  | .fetch _ caller => caller.role
  | _ => .resolving

theorem stage_role (stage : Stage) : stage.role = .resolving ∨ stage.role = .dropped := by
  induction stage with
  | fetch _ caller ih => exact ih
  | releaseTmp _ | releaseCopy => exact Or.inr rfl
  | _ => exact Or.inl rfl

/-- The locks that conflict resolution holds for the copy and for the directory. -/
def Stage.holds : Stage → List (ℕ × Bool)
  | .probe n => [(n, false)]
  | .acquireTmp n => [(n, true)]
  | .copy n tmp | .readTmp n tmp _ => [(n, true), (tmp, false)]
  | .enter n tmp _ _ | .drop n tmp => [(n, true), (tmp, true)]
  | .releaseTmp n => [(n, true)]
  | .fetch _ caller => caller.holds
  | _ => []

def holdRoles (held : List (ℕ × Bool)) (l : ℕ) : List Role :=
  (held.filter (fun h => h.1 = l)).map (fun h => .holding h.2)

def Call.roles (l : ℕ) : Call → List Role
  | .acquire lid pc => if lid = l then pc.roles else []
  | .release lid pc => if lid = l then [pc.role] else []
  | .resolve lid stage => (if lid = l then [stage.role] else []) ++ holdRoles stage.holds l
  | .load eid read buf _ => if eid = l then [.loading read buf] else []
  | .reconnect _ => []

/-- The revokes that the server has sent for a pending request. -/
def Call.marks (l : ℕ) : Call → List (ℕ × Phase)
  | .acquire lid (.revoking o p) => if lid = l then [(o, p)] else []
  | _ => []

def stackRoles (calls : List Call) (l : ℕ) : List Role := calls.flatMap (Call.roles l)

def Thread.roles (th : Thread) (l : ℕ) : List Role := stackRoles th.calls l ++ holdRoles th.held l

def Thread.marks (th : Thread) (l : ℕ) : List (ℕ × Phase) := th.calls.flatMap (Call.marks l)

/-- What thread `T` does if `g` is the only activity. -/
def slot (g : Option (Agent × Role)) (T : ℕ) : List Role :=
  match g with
  | some (.thread U, r) => if U = T then [r] else []
  | _ => []

/-- No thread but that of `g` is busy with the lock. -/
def Client.Agents (c : Client) (l : ℕ) (g : Option (Agent × Role)) : Prop :=
  ∀ T, (c.thread T).roles l = slot g T

def Client.party (c : Client) (l : ℕ) (g : Option (Agent × Role)) : Party :=
  ⟨c.disconnected, (c.lock l).state, (c.lock l).stale, c.localExtent[l]?, g⟩

def Call.reconnects : Call → Bool
  | .reconnect _ => true
  | _ => false

/-- A client in the loop of `disconnect(false)` is connected. -/
def Client.Settled (c : Client) : Prop :=
  ∀ T, (c.thread T).calls.any Call.reconnects = true → c.disconnected = false

section Updates
variable (c : Client) (T U l lid : ℕ) (th : Thread) (calls : List Call) (s : LState) (b : Bool)
  (cache : Cache) (m : Option ℕ)

@[simp] theorem thread_setThread :
    (c.setThread T th).thread U = if T = U then th else c.thread U := by
  simp only [Client.setThread, Client.thread, ExtTreeMap.getElem?_insert,
    LawfulEqCmp.compare_eq_iff_eq]
  split_ifs <;> rfl

@[simp] theorem thread_setCalls : (c.setCalls T calls).thread U =
    if T = U then ⟨calls, (c.thread T).held, (c.thread T).unlinking⟩ else c.thread U :=
  thread_setThread c T U _

@[simp] theorem thread_setLock : (c.setLock lid s b).thread U = c.thread U := rfl
@[simp] theorem thread_setCache : (c.setCache cache).thread U = c.thread U := rfl
@[simp] theorem thread_setLcMutex : (c.setLcMutex m).thread U = c.thread U := rfl
@[simp] theorem thread_setEcMutex : (c.setEcMutex m).thread U = c.thread U := rfl

@[simp] theorem lock_setLock :
    (c.setLock lid s b).lock l = if lid = l then ⟨s, b⟩ else c.lock l := by
  simp only [Client.setLock, Client.lock, LockMap.entry, ExtTreeMap.getElem?_insert,
    LawfulEqCmp.compare_eq_iff_eq]
  split_ifs <;> rfl

@[simp] theorem lock_setThread : (c.setThread T th).lock l = c.lock l := rfl
@[simp] theorem lock_setCalls : (c.setCalls T calls).lock l = c.lock l := rfl
@[simp] theorem lock_setCache : (c.setCache cache).lock l = c.lock l := rfl
@[simp] theorem lock_setLcMutex : (c.setLcMutex m).lock l = c.lock l := rfl
@[simp] theorem lock_setEcMutex : (c.setEcMutex m).lock l = c.lock l := rfl

@[simp] theorem cache_setThread : (c.setThread T th).localExtent = c.localExtent := rfl
@[simp] theorem cache_setCalls : (c.setCalls T calls).localExtent = c.localExtent := rfl
@[simp] theorem cache_setLock : (c.setLock lid s b).localExtent = c.localExtent := rfl
@[simp] theorem cache_setCache : (c.setCache cache).localExtent = cache := rfl
@[simp] theorem cache_setLcMutex : (c.setLcMutex m).localExtent = c.localExtent := rfl
@[simp] theorem cache_setEcMutex : (c.setEcMutex m).localExtent = c.localExtent := rfl

@[simp] theorem offline_setThread : (c.setThread T th).disconnected = c.disconnected := rfl
@[simp] theorem offline_setCalls : (c.setCalls T calls).disconnected = c.disconnected := rfl
@[simp] theorem offline_setLock : (c.setLock lid s b).disconnected = c.disconnected := rfl
@[simp] theorem offline_setCache : (c.setCache cache).disconnected = c.disconnected := rfl
@[simp] theorem offline_setLcMutex : (c.setLcMutex m).disconnected = c.disconnected := rfl
@[simp] theorem offline_setEcMutex : (c.setEcMutex m).disconnected = c.disconnected := rfl

variable (g : Option (Agent × Role))

@[simp] theorem party_setThread : (c.setThread T th).party l g = c.party l g := rfl
@[simp] theorem party_setCalls : (c.setCalls T calls).party l g = c.party l g := rfl
@[simp] theorem party_setLcMutex : (c.setLcMutex m).party l g = c.party l g := rfl
@[simp] theorem party_setEcMutex : (c.setEcMutex m).party l g = c.party l g := rfl

@[simp] theorem party_setCache : (c.setCache cache).party l g =
    ⟨c.disconnected, (c.lock l).state, (c.lock l).stale, cache[l]?, g⟩ := rfl

@[simp] theorem party_setLock : (c.setLock l s b).party l g =
    ⟨c.disconnected, s, b, c.localExtent[l]?, g⟩ := by
  simp [Client.party]

end Updates

section Calls
variable (l lid : ℕ)

@[simp] theorem roles_acquire (pc : AcquirePc) :
    Call.roles l (.acquire lid pc) = if lid = l then pc.roles else [] := rfl

@[simp] theorem roles_release (pc : ReleasePc) :
    Call.roles l (.release lid pc) = if lid = l then [pc.role] else [] := rfl

@[simp] theorem roles_resolve (stage : Stage) : Call.roles l (.resolve lid stage) =
    (if lid = l then [stage.role] else []) ++ holdRoles stage.holds l := rfl

@[simp] theorem roles_load (read : Bool) (buf : Str) (op : Access) :
    Call.roles l (.load lid read buf op) = if lid = l then [.loading read buf] else [] := rfl

@[simp] theorem roles_reconnect (k : Option ℕ) : Call.roles l (.reconnect k) = [] := rfl

@[simp] theorem marks_release (pc : ReleasePc) : Call.marks l (.release lid pc) = [] := rfl

@[simp] theorem marks_resolve (stage : Stage) : Call.marks l (.resolve lid stage) = [] := rfl

end Calls

theorem acquire_roles (lid : ℕ) (pc : AcquirePc) :
    Call.roles lid (.acquire lid pc) = pc.roles := if_pos rfl

theorem release_roles (lid : ℕ) (pc : ReleasePc) :
    Call.roles lid (.release lid pc) = [pc.role] := if_pos rfl

@[simp] theorem stackRoles_nil (l : ℕ) : stackRoles [] l = [] := rfl

@[simp] theorem stackRoles_cons (f : Call) (calls : List Call) (l : ℕ) :
    stackRoles (f :: calls) l = f.roles l ++ stackRoles calls l := rfl

@[simp] theorem holdRoles_nil (l : ℕ) : holdRoles [] l = [] := rfl

@[simp] theorem holdRoles_cons (n : ℕ) (b : Bool) (held : List (ℕ × Bool)) (l : ℕ) :
    holdRoles ((n, b) :: held) l = (if n = l then [.holding b] else []) ++ holdRoles held l := by
  unfold holdRoles
  by_cases h : n = l <;> simp [h]

theorem holdRoles_drop (th : Thread) (lid l : ℕ) :
    holdRoles (th.drop lid) l = if lid = l then [] else holdRoles th.held l := by
  unfold holdRoles Thread.drop
  rw [List.filter_filter]
  split_ifs with h
  · subst h; simp
  · congr 2
    funext x
    by_cases hx : x.1 = l <;> simp [hx, Ne.symm h]

/-- A thread in a section has the lock, and has read the extent or not. -/
theorem holdRoles_of_section {th : Thread} {lid : ℕ} {read : Bool}
    (h : th.section? lid = some read) : .holding read ∈ holdRoles th.held lid := by
  unfold Thread.section? at h
  obtain ⟨l₁,l₂,hl,-⟩ := List.lookup_eq_some_iff.mp h
  have hm : (lid, read) ∈ th.held := by simp [hl]
  exact List.mem_map.mpr ⟨(lid, read), List.mem_filter.mpr ⟨hm, by simp⟩, rfl⟩

/-- What is left of the stack and of the held locks below the current call. -/
def restRoles (c : Client) (T : ℕ) (rest : List Call) (l : ℕ) : List Role :=
  stackRoles rest l ++ holdRoles (c.thread T).held l

@[simp] theorem restRoles_cons (c : Client) (T : ℕ) (f : Call) (rest : List Call) (l : ℕ) :
    restRoles c T (f :: rest) l = f.roles l ++ restRoles c T rest l :=
  List.append_assoc _ _ _

@[simp] theorem restRoles_setCache (c : Client) (T : ℕ) (rest : List Call) (l : ℕ)
    (cache : Cache) : restRoles (c.setCache cache) T rest l = restRoles c T rest l := rfl

@[simp] theorem restRoles_setEcMutex (c : Client) (T : ℕ) (rest : List Call) (l : ℕ)
    (m : Option ℕ) : restRoles (c.setEcMutex m) T rest l = restRoles c T rest l := rfl

theorem roles_setCalls (c : Client) (T : ℕ) (calls : List Call) (l : ℕ) :
    ((c.setCalls T calls).thread T).roles l = restRoles c T calls l := by
  rw [thread_setCalls, if_pos rfl]
  rfl

theorem restRoles_congr {c c' : Client} {T : ℕ} (h : c'.thread T = c.thread T) (rest : List Call)
    (l : ℕ) : restRoles c' T rest l = restRoles c T rest l := by
  unfold restRoles
  rw [h]

section Agents
variable {c c' : Client} {l T : ℕ} {g : Option (Agent × Role)}

theorem agents_single {r : Role} {rs : List Role} (h : c.Agents l g)
    (hr : (c.thread T).roles l = rs) (hm : r ∈ rs) : g = some (.thread T, r) ∧ rs = [r] := by
  have := h T
  rw [hr] at this
  unfold slot at this
  split at this
  · split_ifs at this with hU
    · subst this
      rw [List.mem_singleton.mp hm, ← hU]
      exact ⟨rfl, rfl⟩
    · rw [this] at hm; cases hm
  · rw [this] at hm; cases hm

/-- Only thread `T` changes, and not in what it does with this lock. -/
theorem Client.Agents.same (h : c.Agents l g) (ho : ∀ U, T ≠ U → c'.thread U = c.thread U)
    (hT : (c'.thread T).roles l = (c.thread T).roles l) : c'.Agents l g := by
  intro U
  by_cases hU : T = U
  · subst hU; rw [hT]; exact h T
  · rw [ho U hU]; exact h U

/-- Thread `T`, the only one busy with the lock if any is, does `q` afterwards. -/
theorem Client.Agents.become {q : Role} (h : c.Agents l g)
    (ho : ∀ U, T ≠ U → c'.thread U = c.thread U)
    (hg : g = none ∨ ∃ r, g = some (.thread T, r)) (hT : (c'.thread T).roles l = [q]) :
    c'.Agents l (some (.thread T, q)) := by
  intro U
  by_cases hU : T = U
  · subst hU; rw [hT]; simp [slot]
  · rw [ho U hU, h U]
    obtain rfl | ⟨r,rfl⟩ := hg <;> simp [slot, hU]

/-- Thread `T` is done with the lock. -/
theorem Client.Agents.leave {r : Role} (h : c.Agents l (some (.thread T, r)))
    (ho : ∀ U, T ≠ U → c'.thread U = c.thread U) (hT : (c'.thread T).roles l = []) :
    c'.Agents l none := by
  intro U
  by_cases hU : T = U
  · subst hU; rw [hT]; rfl
  · rw [ho U hU, h U]
    simp [slot, hU]

end Agents

end DisconnectedYfs.YFS
