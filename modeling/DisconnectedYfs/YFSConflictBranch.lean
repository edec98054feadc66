import DisconnectedYfs.YFSNesting
import DisconnectedYfs.YFSAllocation

/-! The conflict branch of `lock_acquired`, turn by turn: what is known of the cache and of the
locks at each of its points, and that no turn of the thread fails. -/
namespace DisconnectedYfs.YFS
open Std

/-- An `acquire_wo` for the lock is on its way. -/
def LockState.Acquires (s : LockState) : Prop := s.state = .acquiring ∨ s.state = .waiting

/-- The request has been sent. -/
def AcquirePc.asked : AcquirePc → Bool
  | .start | .check | .waiting => false
  | _ => true

/-- The thread of the call runs with the mutex. -/
def Call.running : Call → Bool
  | .acquire _ .start | .acquire _ .check | .release _ .start | .resolve _ _ => true
  | _ => false

/-- `lock_acquired(lid)`, called from the calls `rest`, is in its conflict branch. -/
def resolving (lid : ℕ) (rest : List Call) : List Call → Bool
  | .resolve l _ :: calls => l = lid && calls = rest
  | _ => false

def Thread.resolves (th : Thread) (lid : ℕ) (rest : List Call) : Bool :=
  resolving lid rest th.calls || resolving lid rest th.calls.tail

/-- The callers of `acquire_wo`. -/
inductive AcquireCaller : List Call → Prop
  | application : AcquireCaller []
  | acquireNew {l rest} : AcquireCaller (.resolve l .acquireNew :: rest)
  | acquireTmp {l n rest} : AcquireCaller (.resolve l (.acquireTmp n) :: rest)
  | reconnect {k rest} : AcquireCaller (.reconnect k :: rest)

/-- The extent as the client sees it. -/
def Cache.sees (m : Cache) (t : Table) (l : ℕ) : Option Str :=
  match m[l]? with
  | some e => some e.extent
  | none => (t[l]?).map FInfo.buf

/-- The version of the extent that is in conflict, with its contents and its name. -/
def Cache.Keeps (m : Cache) (l : ℕ) (e : Entry) : Prop :=
  ∃ e', m[l]? = some e' ∧ e'.extent = e.extent ∧ e'.attr.name = e.attr.name

/-- A changed copy with these contents. -/
def Cache.Changed (m : Cache) (l : ℕ) (b : Str) : Prop :=
  ∃ e, m[l]? = some e ∧ e.dirty = true ∧ e.extent = b

/-- A number drawn for the copy whose lock the branch has. -/
structure NewLid (lock : ℕ → LockState) (lid n : ℕ) : Prop where
  drawn : Drawn 0x80000000 n
  other : n ≠ lid
  held : lock n = ⟨.locked, false⟩

/-- The points of the branch, as the calls on top of those of `lock_acquired(lid)`, and what is
known there of the cache, the locks and the extent server: up to `make_copy` the version `e` is as
it was, then the copy `n` has its contents, then the directory `d` in `tmp` has an entry for it. -/
inductive At (m : Cache) (lock : ℕ → LockState) (t : Table) (lid : ℕ) (e : Entry) (d : Dir) :
    List Call → Prop
  | draw (hk : m.Keeps lid e) : At m lock t lid e d [.resolve lid .draw]
  | acquireNew {n pc} (hk : m.Keeps lid e) (hn : Drawn 0x80000000 n)
      (hpc : pc.asked = true → n ≠ lid ∧ (lock n).Acquires) :
      At m lock t lid e d [.acquire n pc, .resolve lid .acquireNew]
  | probe {n} (hk : m.Keeps lid e) (hn : NewLid lock lid n) :
      At m lock t lid e d [.resolve lid (.probe n)]
  | fetchNew {n buf f} (hk : m.Keeps lid e) (hn : NewLid lock lid n) (hf : t[n]? = some f) :
      At m lock t lid e d [.resolve lid (.fetch buf (.probe n))]
  | releaseNew {n} (hk : m.Keeps lid e) (hn : NewLid lock lid n) :
      At m lock t lid e d [.release n .start, .resolve lid .releaseNew]
  | acquireTmp {n pc} (hk : m.Keeps lid e) (hn : NewLid lock lid n)
      (hpc : pc.asked = true → (lock 2).Acquires) :
      At m lock t lid e d [.acquire 2 pc, .resolve lid (.acquireTmp n)]
  | copy {n} (hk : m.Keeps lid e) (hn : NewLid lock lid n) (h2 : lock 2 = ⟨.locked, false⟩) :
      At m lock t lid e d [.resolve lid (.copy n 2)]
  | readTmp {n} (hk : m.Keeps lid e) (hn : NewLid lock lid n) (h2 : lock 2 = ⟨.locked, false⟩)
      (hc : m.Changed n e.extent) (hd : m.sees t 2 = some d.toStr) :
      At m lock t lid e d [.resolve lid (.readTmp n 2 e.attr.name)]
  | fetchTmp {n f} (hk : m.Keeps lid e) (hn : NewLid lock lid n) (h2 : lock 2 = ⟨.locked, false⟩)
      (hc : m.Changed n e.extent) (hf : t[2]? = some f) :
      At m lock t lid e d [.resolve lid (.fetch d.toStr (.readTmp n 2 e.attr.name))]
  | enter {n k name dir} (hk : m.Keeps lid e) (hn : NewLid lock lid n)
      (h2 : lock 2 = ⟨.locked, false⟩) (hc : m.Changed n e.extent)
      (hname : name = copyName e.attr.name k) (hfree : d[copyName e.attr.name k]? = none)
      (hdir : dir = Dir.toStr (d.insert (copyName e.attr.name k) n)) :
      At m lock t lid e d [.resolve lid (.enter n 2 name dir)]
  | drop {n k} (hk : m.Keeps lid e) (hn : NewLid lock lid n) (h2 : lock 2 = ⟨.locked, false⟩)
      (hc : m.Changed n e.extent) (hfree : d[copyName e.attr.name k]? = none)
      (hd : m.Changed 2 (Dir.toStr (d.insert (copyName e.attr.name k) n))) :
      At m lock t lid e d [.resolve lid (.drop n 2)]
  | releaseTmp {n k} (hgone : m[lid]? = none) (hn : NewLid lock lid n)
      (h2 : lock 2 = ⟨.locked, false⟩) (hc : m.Changed n e.extent)
      (hfree : d[copyName e.attr.name k]? = none)
      (hd : m.Changed 2 (Dir.toStr (d.insert (copyName e.attr.name k) n))) :
      At m lock t lid e d [.release 2 .start, .resolve lid (.releaseTmp n)]
  | releaseCopy {n k} (hgone : m[lid]? = none) (hn : NewLid lock lid n)
      (hc : m.Changed n e.extent) (hfree : d[copyName e.attr.name k]? = none)
      (hd : m.Changed 2 (Dir.toStr (d.insert (copyName e.attr.name k) n))) :
      At m lock t lid e d [.release n .start, .resolve lid .releaseCopy]

/-- The thread is at a point of the branch, with the calls `front` on top of `rest`; the server has
the other version `g`. -/
structure Client.Amid (c : Client) (t : Table) (T lid : ℕ) (e : Entry) (g : FInfo) (d : Dir)
    (rest front : List Call) : Prop where
  calls : (c.thread T).calls = front ++ rest
  mutex : front.head?.any Call.running = true → c.lcMutex = some T
  online : c.disconnected = false
  alive : c.aborted = false
  free : c.ecFree T = true
  acquires : (c.lock lid).Acquires
  extent : t[lid]? = some g
  point : At c.localExtent c.lock t lid e d front

/-- What the branch leaves: the client's version is the file `n`, which has a new name in `tmp`, and
the copy of `lid` is gone, whose lock the client has. -/
structure Client.Resolved (c : Client) (t : Table) (lid : ℕ) (e : Entry) (g : FInfo) (d : Dir)
    (n k : ℕ) : Prop where
  drawn : Drawn 0x80000000 n
  other : n ≠ lid
  copy : c.localExtent.Changed n e.extent
  fresh : d[copyName e.attr.name k]? = none
  entered : c.localExtent.Changed 2 (Dir.toStr (d.insert (copyName e.attr.name k) n))
  gone : c.localExtent[lid]? = none
  extent : t[lid]? = some g
  lock : c.lock lid = ⟨.locked, false⟩

/-- The thread has left the branch. -/
structure Client.Left (c : Client) (t : Table) (T lid : ℕ) (e : Entry) (g : FInfo) (d : Dir)
    (rest : List Call) : Prop where
  alive : c.aborted = false
  left : (c.thread T).resolves lid rest = false
  resolved : ∃ n k, c.Resolved t lid e g d n k

/-- Nothing changes but a thread's stack, the mutex, one lock and the copy of its extent. -/
structure Client.Apart (c c' : Client) (l : ℕ) : Prop where
  online : c'.disconnected = c.disconnected
  alive : c'.aborted = c.aborted
  ec : c'.ecMutex = c.ecMutex
  lock : ∀ j, j ≠ l → c'.lock j = c.lock j
  cache : ∀ j, j ≠ l → c'.localExtent[j]? = c.localExtent[j]?

/-- What a step of `acquire_wo(l)` at `pc` comes to: the thread is still before its request, or it
waits for the answer, or it has got the lock. The last two only if the lock was not being acquired
before. -/
inductive Client.Acquiring (c : Client) (t : Table) (T l : ℕ) (pc : AcquirePc) (rest : List Call) :
    Outcome → Prop
  | before {q x} (hpc : q.asked = false)
      (hx : (Call.acquire l q).running = true → x = some T) :
      c.Acquiring t T l pc rest (.done ((c.setCalls T (.acquire l q :: rest)).setLcMutex x) t)
  | asks {k q} (hcalls : (k.thread T).calls = .acquire l q :: rest) (hpc : q.asked = true)
      (hl : (k.lock l).Acquires) (ha : c.Apart k l)
      (hne : pc.asked = false → ¬(c.lock l).Acquires) :
      c.Acquiring t T l pc rest (.done k t)
  | got {k o} (ha : c.Apart k l) (hx : k.lcMutex = some T) (hl : k.lock l = ⟨.locked, false⟩)
      (hcalls : (k.thread T).calls = .acquire l pc :: rest)
      (hne : pc.asked = false → ¬(c.lock l).Acquires)
      (ho : k.acquireDone t T l .ok rest = o) : c.Acquiring t T l pc rest o

/-- `lock_acquired(l)` would not enter its conflict branch, nor fail: the lock is not stale, or the
cached copy is unchanged or of the server's version. -/
def Client.current (c : Client) (t : Table) (l : ℕ) : Bool :=
  !(c.lock l).stale ||
    (c.localExtent[l]?).all (fun e => !e.dirty || compareVersion e t l = some true)

section
variable {c c' : Client} {t : Table} {w : UInt32} {T l lid n : ℕ} {rest front : List Call}
  {pc : AcquirePc} {o : Outcome} {m : Cache} {lock : ℕ → LockState} {e : Entry}
    {g : FInfo} {d : Dir}

theorem apart_setLock (st : LState) (stale : Bool) : c.Apart (c.setLock l st stale) l := by
  refine ⟨rfl, rfl, rfl, ?_, fun _ _ => rfl⟩
  intro j hj
  rw [lock_setLock, if_neg (Ne.symm hj)]

/-- The mutex and the stacks do not matter. -/
theorem Client.Apart.with_calls (h : c.Apart c' l) (calls : List Call) :
    c.Apart (c'.setCalls T calls) l :=
  ⟨h.online, h.alive, h.ec, h.lock, h.cache⟩

/-- The calls with the mutex: the lock is taken from the cache, or the request is sent. -/
theorem acquire_turn {a b : ℕ} (hcalls : (c.thread T).calls = .acquire l pc :: rest)
    (hrun : (Call.acquire l pc).running = true) (hx : c.lcMutex = some T)
    (hon : c.disconnected = false) :
    ∃ o, c.turn t w T a b = some o ∧ c.Acquiring t T l pc rest o := by
  have hself : c = c.setLcMutex (some T) := by
    rw [← hx]
    rfl
  unfold Client.turn
  rw [hcalls]
  cases pc with
  | start =>
    refine ⟨_, rfl, ?_⟩
    unfold Client.acquireEnter
    simp only [hon, Bool.false_and, Bool.false_eq_true, if_false]
    rw [hself]
    exact .before (q := .check) rfl (fun _ => rfl)
  | check =>
    refine ⟨_, rfl, ?_⟩
    unfold Client.acquireCheck
    simp only [hon, Bool.false_eq_true, false_and, if_false]
    split_ifs with hbusy hask
    · exact .before (q := .waiting) rfl (fun h => by cases h)
    · refine .asks (q := .call) ?_ rfl ?_ ?_ ?_
      · simp
      · left
        simp
      · exact ⟨rfl, rfl, rfl, (apart_setLock _ _).lock, fun _ _ => rfl⟩
      · rintro - (h | h) <;> exact hbusy (by simp [h])
    · have hstale : (c.lock l).stale = false := by
        by_contra hs
        exact hask (Or.inl (Bool.not_eq_false _ ▸ hs))
      rw [hstale]
      refine .got (apart_setLock .locked false) hx (by simp) hcalls ?_ rfl
      rintro - (h | h) <;> exact hbusy (by simp [h])
  | _ => cases hrun

/-- `lock_acquired` without a conflict. -/
theorem lockAcquired_got {c₀ : Client} (hcalls : (c.thread T).calls = .acquire l pc :: rest)
    (ha : c₀.Apart c l) (hx : c.lcMutex = some T) (hfree : c.ecFree T = true)
    (hcur : c.current t l = true) (hne : pc.asked = false → ¬(c₀.lock l).Acquires)
    (h : c.lockAcquired t T l rest = some o) : c₀.Acquiring t T l pc rest o := by
  have hlocked : ∀ m : Cache, (∀ j, j ≠ l → m[j]? = c.localExtent[j]?) →
      ((c.setCache m).setLock l .locked false).acquireDone t T l .ok rest = o →
      c₀.Acquiring t T l pc rest o := by
    intro m hm ho
    refine .got (k := (c.setCache m).setLock l .locked false) ?_ hx (by simp) hcalls hne ho
    refine ⟨ha.online, ha.alive, ha.ec, ?_, fun j hj => (hm j hj).trans (ha.cache j hj)⟩
    intro j hj
    rw [(apart_setLock .locked false).lock j hj]
    exact ha.lock j hj
  unfold Client.lockAcquired at h
  simp only [hfree, if_true] at h
  split_ifs at h with hstale
  · split at h
    · exact hlocked _ (fun _ _ => rfl) (Option.some.inj h)
    · rename_i e he
      split_ifs at h with hdirty
      · have hcmp : compareVersion e t l = some true := by
          simpa [Client.current, hstale, he, hdirty] using hcur
        rw [hcmp] at h
        exact hlocked _ (fun _ _ => rfl) (Option.some.inj h)
      · refine hlocked _ ?_ (Option.some.inj h)
        intro j hj
        rw [cache_getElem_erase, if_neg (Ne.symm hj)]
  · exact hlocked _ (fun _ _ => rfl) (Option.some.inj h)

/-- The calls without the mutex: the answer has come, or the thread was asleep. -/
theorem acquire_wake (hcalls : (c.thread T).calls = .acquire l pc :: rest)
    (hon : c.disconnected = false) (hfree : c.ecFree T = true)
    (hl : pc.asked = true → (c.lock l).Acquires)
    (hcur : pc = .reply .ok → c.current t l = true) (h : c.wake t T = some o) :
    c.Acquiring t T l pc rest o := by
  unfold Client.wake at h
  rw [hcalls] at h
  cases pc with
  | waiting =>
    cases h
    exact .before (q := .check) rfl (fun _ => rfl)
  | waitRetry =>
    dsimp only at h
    split_ifs at h
    cases h
    refine .asks (q := .call) ?_ rfl (hl rfl) ⟨rfl, rfl, rfl, fun _ _ => rfl, fun _ _ => rfl⟩
      (fun h => by cases h)
    simp
  | reply r =>
    have hasks : ∀ pc' st, pc'.asked = true → (st = .acquiring ∨ st = .waiting) →
        c.Acquiring t T l (.reply r) rest (.done (((((c.setLcMutex (some T)).setLock l st
          ((c.setLcMutex (some T)).lock l).stale)).setCalls T (.acquire l pc' :: rest)).setLcMutex
            none) t) := by
      intro pc' st hpc hst
      refine .asks (q := pc') ?_ hpc ?_ ?_ (fun h => by cases h)
      · simp
      · unfold LockState.Acquires
        simpa using hst
      · exact ⟨rfl, rfl, rfl, (apart_setLock _ _).lock, fun _ _ => rfl⟩
    have hgot : (c.setLcMutex (some T)).current t l = true →
        ((AcquirePc.reply r).asked = false → ¬(c.lock l).Acquires) →
        (c.setLcMutex (some T)).lockAcquired t T l rest = some o →
        c.Acquiring t T l (.reply r) rest o :=
      lockAcquired_got hcalls ⟨rfl, rfl, rfl, fun _ _ => rfl, fun _ _ => rfl⟩ rfl hfree
    simp only [Client.acquireReply, offline_setLcMutex, hon, Bool.false_eq_true, if_false] at h
    cases r with
    | ok =>
      obtain hs | hs := hl rfl
      · rw [lock_setLcMutex, hs] at h
        exact hgot (hcur rfl) (fun h => by cases h) h
      · rw [lock_setLcMutex, hs] at h
        exact hgot (hcur rfl) (fun h => by cases h) h
    | retry =>
      obtain hs | hs := hl rfl
      · simp only [lock_setLcMutex, hs] at h
        cases h
        exact hasks .waitRetry .waiting rfl (Or.inr rfl)
      · simp only [lock_setLcMutex, hs] at h
        cases h
        exact hasks .call .acquiring rfl (Or.inl rfl)
  | _ => cases h

end

section
variable {m m' : Cache} {t : Table} {lock : ℕ → LockState} {now : UInt32} {l j lid n : ℕ} {b : Str}
  {e : Entry}

theorem NewLid.ne_two (h : NewLid lock lid n) : n ≠ 2 := by
  obtain ⟨k,-,rfl⟩ := h.drawn
  have hle : 0x80000000 ≤ k ||| 0x80000000 := Nat.right_le_or
  omega

theorem Cache.Keeps.congr (h : m.Keeps l e) (hm : m'[l]? = m[l]?) : m'.Keeps l e := by
  unfold Cache.Keeps
  rw [hm]
  exact h

theorem Cache.Changed.congr (h : m.Changed l b) (hm : m'[l]? = m[l]?) : m'.Changed l b := by
  unfold Cache.Changed
  rw [hm]
  exact h

theorem sees_congr (hm : m'[l]? = m[l]?) : m'.sees t l = m.sees t l := by
  unfold Cache.sees
  rw [hm]

theorem Cache.Keeps.touch (h : m.Keeps l e) (j : ℕ) (now : UInt32) : (m.touch j now).Keeps l e := by
  obtain ⟨e',he,hb,hname⟩ := h
  refine ⟨_, by rw [cache_touch_getElem, he, Option.map_some], ?_, ?_⟩
  · split_ifs <;> exact hb
  · split_ifs <;> exact hname

theorem Cache.Changed.touch (h : m.Changed l b) (j : ℕ) (now : UInt32) :
    (m.touch j now).Changed l b := by
  obtain ⟨e,he,hd,hb⟩ := h
  refine ⟨_, by rw [cache_touch_getElem, he, Option.map_some], ?_, ?_⟩
  · split_ifs <;> exact hd
  · split_ifs <;> exact hb

theorem Cache.Changed.setName (h : m.Changed l b) (j : ℕ) (name : Str) :
    (m.setName j name).Changed l b := by
  obtain ⟨e,he,hd,hb⟩ := h
  refine ⟨_, by rw [cache_setName_getElem, he, Option.map_some], ?_, ?_⟩
  · split_ifs <;> exact hd
  · split_ifs <;> exact hb

theorem changed_put (m : Cache) (l : ℕ) (b : Str) (now : UInt32) : (m.put l b now).Changed l b := by
  obtain ⟨e,he,hd,hb,-⟩ := cache_put_self m l b now
  exact ⟨e, he, hd, hb⟩

theorem load_other (m : Cache) {l j : ℕ} (hj : l ≠ j) (b : Str) (a : Attr) :
    (m.load l b a)[j]? = m[j]? := by
  unfold Cache.load
  rw [cache_getElem_insert, if_neg hj]

/-- What `make_copy` writes into the directory. -/
theorem addCopy_enters {d : Dir} (hd : d.Wf) (base : Str) (n : ℕ) :
    ∃ k, d[copyName base k]? = none ∧
      addCopy d.toStr base n = some (copyName base k,
        Dir.toStr (d.insert (copyName base k) n)) := by
  obtain ⟨name,hname⟩ := freshName_found d base
  obtain ⟨hfree,k,rfl⟩ := freshName_some (i := 0) hname
  refine ⟨k, hfree, ?_⟩
  simp [addCopy, parseDir_toStr hd, hname]

end

section
variable {c c' : Client} {t : Table} {w : UInt32} {T l lid n a b : ℕ}
    {rest front front' : List Call}
  {m : Cache} {e : Entry} {g : FInfo} {d : Dir} {stage : Stage}

/-- The thread goes on with the mutex. -/
theorem Client.Amid.goes (h : c.Amid t T lid e g d rest front)
    (hcalls : (c'.thread T).calls = front' ++ rest) (hx : c'.lcMutex = some T)
    (hon : c'.disconnected = c.disconnected) (hal : c'.aborted = c.aborted)
    (hec : c'.ecFree T = true) (hl : (c'.lock lid).Acquires)
    (hat : At c'.localExtent c'.lock t lid e d front') : c'.Amid t T lid e g d rest front' :=
  ⟨hcalls, fun _ => hx, hon.trans h.online, hal.trans h.alive, hec, hl, h.extent, hat⟩

theorem Client.Amid.running (h : c.Amid t T lid e g d rest (.resolve lid stage :: front)) :
    c.lcMutex = some T := h.mutex rfl

theorem Client.Amid.turn_eq (h : c.Amid t T lid e g d rest [.resolve lid stage]) :
    c.turn t w T a b = c.resolveStep t w T a b lid rest stage := by
  unfold Client.turn
  rw [h.calls]
  rfl

theorem draw_turn (h : c.Amid t T lid e g d rest [.resolve lid .draw]) :
    ∃ c', c.turn t w T a b = some (.done c' t) ∧ c'.Amid t T lid e g d rest
      [.acquire (randNum a b ||| 0x80000000) .start, .resolve lid .acquireNew] := by
  cases h.point with | draw hk
  rw [h.turn_eq]
  refine ⟨_, rfl, h.goes ?_ h.running rfl rfl h.free h.acquires
    (.acquireNew hk (randNum_drawn a b _) (fun h => by cases h))⟩
  simp

/-- `remote_exists(new_lid)`: it does, it does not, or its extent is fetched. -/
theorem probe_turn (h : c.Amid t T lid e g d rest [.resolve lid (.probe n)]) :
    ∃ c' front', c.turn t w T a b = some (.done c' t) ∧ c'.Amid t T lid e g d rest front' := by
  cases h.point with | probe hk hn
  rw [h.turn_eq]
  unfold Client.resolveStep Client.withExtent
  simp only [h.free, if_true]
  rcases hcopy : c.localExtent[n]? with _ | e'
  · rcases ht : t[n]? with _ | f
    · simp only [Table.get, ht, Option.map_none]
      refine ⟨_, [.acquire 2 .start, .resolve lid (.acquireTmp n)], rfl,
        h.goes ?_ h.running rfl rfl h.free h.acquires (.acquireTmp hk hn (fun h => by cases h))⟩
      simp
    · simp only [Table.get, ht, Option.map_some]
      refine ⟨_, [.resolve lid (.fetch f.buf (.probe n))], rfl,
        h.goes ?_ h.running rfl rfl ?_ h.acquires (.fetchNew hk hn ht)⟩
      · simp
      · simp [Client.ecFree, Client.setEcMutex]
  · refine ⟨_, [.release n .start, .resolve lid .releaseNew], rfl,
      h.goes ?_ h.running rfl rfl rfl h.acquires (.releaseNew (hk.touch n w) hn)⟩
    simp

theorem fetchNew_turn {buf : Str}
    (h : c.Amid t T lid e g d rest [.resolve lid (.fetch buf (.probe n))]) :
    ∃ c' front', c.turn t w T a b = some (.done c' t) ∧ c'.Amid t T lid e g d rest front' := by
  cases h.point with | fetchNew hk hn hf
  rw [h.turn_eq]
  simp only [Client.resolveStep, Stage.target, Table.getattr, hf, Option.map_some]
  refine ⟨_, [.resolve lid (.probe n)], rfl, h.goes ?_ h.running rfl rfl h.free h.acquires
    (.probe (hk.congr (load_other _ hn.other _ _)) hn)⟩
  simp

/-- `get(lid)` and `put(new_lid)` of `make_copy`. -/
theorem copy_turn (hlid : lid ≠ 2) (hdir : c.localExtent.sees t 2 = some d.toStr)
    (h : c.Amid t T lid e g d rest [.resolve lid (.copy n 2)]) :
    ∃ c', c.turn t w T a b = some (.done c' t) ∧
      c'.Amid t T lid e g d rest [.resolve lid (.readTmp n 2 e.attr.name)] := by
  cases h.point with | copy hk hn h2
  rw [h.turn_eq]
  obtain ⟨e',he,hb,hname⟩ := hk
  unfold Client.resolveStep Client.withExtent
  simp only [h.free, if_true, he, hb, hname]
  refine ⟨_, rfl, h.goes ?_ h.running rfl rfl rfl h.acquires (.readTmp ?_ hn h2 ?_ ?_)⟩
  · simp
  · have hk' := Cache.Keeps.touch ⟨e', he, hb, hname⟩ lid w
    exact hk'.congr (cache_put_other _ _ _ hn.other)
  · exact changed_put _ n e.extent w
  · have hput := cache_put_other (c.localExtent.touch lid w) e.extent w hn.ne_two
    exact (sees_congr (hput.trans (touch_other _ w hlid))).trans hdir

/-- `get(tmp_lid)` of a cached directory, and the search for a name. -/
theorem readTmp_turn (hd : d.Wf)
    (h : c.Amid t T lid e g d rest [.resolve lid (.readTmp n 2 e.attr.name)])
    (hcopy : (c.localExtent[2]?).isSome = true) :
    ∃ c' name dir, c.turn t w T a b = some (.done c' t) ∧
      c'.Amid t T lid e g d rest [.resolve lid (.enter n 2 name dir)] := by
  cases h.point with | readTmp hk hn h2 hc hdir
  rw [h.turn_eq]
  obtain ⟨e₂,he₂⟩ := Option.isSome_iff_exists.mp hcopy
  obtain ⟨k,hfree,hadd⟩ := addCopy_enters hd e.attr.name n
  have hext : e₂.extent = d.toStr := by simpa [Cache.sees, he₂] using hdir
  unfold Client.resolveStep Client.withExtent
  simp only [h.free, if_true, he₂, hext, hadd]
  refine ⟨_, _, _, rfl, h.goes ?_ h.running rfl rfl rfl h.acquires
    (.enter (hk.touch 2 w) hn h2 (hc.touch 2 w) rfl hfree rfl)⟩
  simp

/-- The directory is fetched first. -/
theorem readTmp_fetches (h : c.Amid t T lid e g d rest [.resolve lid (.readTmp n 2 e.attr.name)])
    (hcopy : c.localExtent[2]? = none) :
    ∃ c', c.turn t w T a b = some (.done c' t) ∧
      c'.Amid t T lid e g d rest [.resolve lid (.fetch d.toStr (.readTmp n 2 e.attr.name))] := by
  cases h.point with | readTmp hk hn h2 hc hdir
  rw [h.turn_eq]
  obtain ⟨f,hf,hbuf⟩ : ∃ f, t[2]? = some f ∧ f.buf = d.toStr := by
    simpa [Cache.sees, hcopy] using hdir
  unfold Client.resolveStep Client.withExtent
  simp only [h.free, if_true, hcopy, Table.get, hf, Option.map_some, hbuf]
  refine ⟨_, rfl, h.goes ?_ h.running rfl rfl ?_ h.acquires (.fetchTmp hk hn h2 hc hf)⟩
  · simp
  · simp [Client.ecFree, Client.setEcMutex]

theorem fetchTmp_turn (hlid : lid ≠ 2)
    (h : c.Amid t T lid e g d rest [.resolve lid (.fetch d.toStr (.readTmp n 2 e.attr.name))]) :
    ∃ c', c.turn t w T a b = some (.done c' t) ∧ (c'.localExtent[2]?).isSome = true ∧
      c'.Amid t T lid e g d rest [.resolve lid (.readTmp n 2 e.attr.name)] := by
  cases h.point with | fetchTmp hk hn h2 hc hf
  rw [h.turn_eq]
  simp only [Client.resolveStep, Stage.target, Table.getattr, hf, Option.map_some]
  refine ⟨_, rfl, ?_, h.goes ?_ h.running rfl rfl h.free h.acquires
    (.readTmp (hk.congr (load_other _ (Ne.symm hlid) _ _)) hn h2
      (hc.congr (load_other _ (Ne.symm hn.ne_two) _ _)) ?_)⟩
  · simp [Cache.load]
  · simp
  · simp [Cache.sees, Cache.load]

/-- `rename(new_lid)` and `put(tmp_lid)` of `make_copy`. -/
theorem enter_turn {name dir : Str} (hlid : lid ≠ 2)
    (h : c.Amid t T lid e g d rest [.resolve lid (.enter n 2 name dir)]) :
    ∃ c', c.turn t w T a b = some (.done c' t) ∧
      c'.Amid t T lid e g d rest [.resolve lid (.drop n 2)] := by
  cases h.point with | enter hk hn h2 hc hname hfree hdir
  rw [h.turn_eq]
  obtain ⟨e',he⟩ : ∃ e', c.localExtent[n]? = some e' := hc.imp (fun _ h => h.1)
  have hput : ∀ j, j ≠ 2 → ((c.localExtent.setName n name).put 2 dir w)[j]? =
      (c.localExtent.setName n name)[j]? := fun j hj => cache_put_other _ _ _ (Ne.symm hj)
  unfold Client.resolveStep Client.withExtent
  simp only [h.free, if_true, he]
  refine ⟨_, rfl, h.goes ?_ h.running rfl rfl rfl h.acquires (.drop ?_ hn h2 ?_ hfree ?_)⟩
  · simp
  · exact hk.congr ((hput lid hlid).trans (setName_other _ name hn.other))
  · exact (hc.setName n name).congr (hput n hn.ne_two)
  · rw [← hdir]
    exact changed_put _ 2 dir w

/-- `remove(lid)` drops the client's version. -/
theorem drop_turn (hlid : lid ≠ 2) (h : c.Amid t T lid e g d rest [.resolve lid (.drop n 2)]) :
    ∃ c', c.turn t w T a b = some (.done c' t) ∧
      c'.Amid t T lid e g d rest [.release 2 .start, .resolve lid (.releaseTmp n)] := by
  cases h.point with | drop hk hn h2 hc hfree hd
  rw [h.turn_eq]
  obtain ⟨e',he⟩ : ∃ e', c.localExtent[lid]? = some e' := hk.imp (fun _ h => h.1)
  have herase : ∀ j, j ≠ lid → (c.localExtent.erase lid)[j]? = c.localExtent[j]? := by
    intro j hj
    rw [cache_getElem_erase, if_neg (Ne.symm hj)]
  simp only [Client.resolveStep, h.free, if_true, Cache.remove, he]
  refine ⟨_, rfl, h.goes ?_ h.running rfl rfl h.free h.acquires
    (.releaseTmp ?_ hn h2 (hc.congr (herase n hn.other)) hfree
      (hd.congr (herase 2 (Ne.symm hlid))))⟩
  · simp
  · simp

/-- `release_wo` of a lock that no revoke has come for. -/
theorem release_turn (hcalls : (c.thread T).calls = .release l .start :: front)
    (hl : c.lock l = ⟨.locked, false⟩) :
    c.turn t w T a b = some ((c.setLock l .free false).releaseDone t T front) := by
  unfold Client.turn
  rw [hcalls]
  simp [Client.releaseWo, hl]

theorem releaseNew_turn (h : c.Amid t T lid e g d rest [.release n .start,
    .resolve lid .releaseNew]) :
    ∃ c', c.turn t w T a b = some (.done c' t) ∧
      c'.Amid t T lid e g d rest [.resolve lid .draw] := by
  cases h.point with | releaseNew hk hn
  rw [release_turn h.calls hn.held]
  refine ⟨_, rfl, h.goes ?_ (h.mutex rfl) rfl rfl h.free ?_ (.draw hk)⟩
  · simp
  · rw [lock_setCalls, lock_setLock, if_neg hn.other]
    exact h.acquires

theorem releaseTmp_turn (hlid : lid ≠ 2)
    (h : c.Amid t T lid e g d rest [.release 2 .start, .resolve lid (.releaseTmp n)]) :
    ∃ c', c.turn t w T a b = some (.done c' t) ∧
      c'.Amid t T lid e g d rest [.release n .start, .resolve lid .releaseCopy] := by
  cases h.point with | releaseTmp hgone hn h2 hc hfree hd
  rw [release_turn h.calls h2]
  have hheld : (c.setLock 2 .free false).lock n = ⟨.locked, false⟩ := by
    rw [lock_setLock, if_neg (Ne.symm hn.ne_two)]
    exact hn.held
  refine ⟨_, rfl, h.goes ?_ (h.mutex rfl) rfl rfl h.free ?_
    (.releaseCopy hgone ⟨hn.drawn, hn.other, hheld⟩ hc hfree hd)⟩
  · simp
  · rw [lock_setCalls, lock_setLock, if_neg (Ne.symm hlid)]
    exact h.acquires

theorem resolving_length {calls : List Call} (h : resolving lid rest calls = true) :
    calls.length = rest.length+1 := by
  unfold resolving at h
  split at h
  · simp only [Bool.and_eq_true, decide_eq_true_eq] at h
    rw [← h.2, List.length_cons]
  · cases h

theorem resolves_length {th : Thread} (h : th.resolves lid rest = true) :
    rest.length < th.calls.length := by
  obtain h | h := Bool.or_eq_true_iff.mp h
  · have := resolving_length h
    omega
  · have := resolving_length h
    rw [List.length_tail] at this
    omega

/-- `acquire_wo` returns to its caller, whose next calls are not those of the branch. -/
theorem acquireDone_returns (lid : ℕ) (hcaller : AcquireCaller rest) :
    ∃ c', c.acquireDone t T lid .ok rest = .done c' t ∧ c'.localExtent = c.localExtent ∧
      c'.lock = c.lock ∧ c'.aborted = c.aborted ∧ (c'.thread T).resolves lid rest = false := by
  cases hcaller with
  | application =>
    refine ⟨_, rfl, rfl, rfl, rfl, ?_⟩
    simp [Thread.resolves, resolving]
  | @acquireNew l rest =>
    refine ⟨_, rfl, rfl, rfl, rfl, Bool.not_eq_true _ ▸ fun h => ?_⟩
    have := resolves_length h
    simp at this
  | @acquireTmp l n rest =>
    refine ⟨_, rfl, rfl, rfl, rfl, Bool.not_eq_true _ ▸ fun h => ?_⟩
    have := resolves_length h
    simp at this
  | @reconnect k rest =>
    refine ⟨_, rfl, rfl, rfl, rfl, ?_⟩
    simp [Thread.resolves, resolving]

/-- The end of `lock_acquired(lid)`, which returns to its caller. -/
theorem releaseCopy_turn (hcaller : AcquireCaller rest)
    (h : c.Amid t T lid e g d rest [.release n .start, .resolve lid .releaseCopy]) :
    ∃ c', c.turn t w T a b = some (.done c' t) ∧ c'.Left t T lid e g d rest := by
  cases h.point with | @releaseCopy _ k hgone hn hc hfree hd
  obtain ⟨c',hdone,hcache,hlock,hal,hleft⟩ := acquireDone_returns (t := t) (T := T)
    (c := (c.setLock n .free false).setLock lid .locked false) lid hcaller
  rw [release_turn h.calls hn.held]
  refine ⟨c', congrArg some hdone, hal.trans h.alive, hleft, n, k, hn.drawn, hn.other,
    ?_, hfree, ?_, ?_, h.extent, ?_⟩
  · rw [hcache]
    exact hc
  · rw [hcache]
    exact hd
  · rw [hcache]
    exact hgone
  · rw [hlock]
    simp

/-- A step of `acquire_wo` for another lock. -/
theorem Client.Amid.apart (h : c.Amid t T lid e g d rest front) (ha : c.Apart c' l) (hl : l ≠ lid)
    (hcalls : (c'.thread T).calls = front' ++ rest)
    (hx : front'.head?.any Call.running = true → c'.lcMutex = some T)
    (hat : At c'.localExtent c'.lock t lid e d front') : c'.Amid t T lid e g d rest front' := by
  refine ⟨hcalls, hx, ha.online.trans h.online, ha.alive.trans h.alive, ?_, ?_, h.extent, hat⟩
  · unfold Client.ecFree
    rw [ha.ec]
    exact h.free
  · rw [ha.lock lid (Ne.symm hl)]
    exact h.acquires

theorem running_of_asked {pc : AcquirePc} {P : Prop} (h : pc.asked = true)
    (hrun : (Call.acquire l pc).running = true) : P := by
  cases pc <;> cases h <;> cases hrun

/-- A step of `acquire_wo(new_lid)`. -/
theorem acquireNew_goes {pc : AcquirePc} {o : Outcome}
    (h : c.Amid t T lid e g d rest [.acquire n pc, .resolve lid .acquireNew])
    (ho : c.Acquiring t T n pc (.resolve lid .acquireNew :: rest) o) :
    ∃ c' front', o = .done c' t ∧ c'.Amid t T lid e g d rest front' := by
  cases h.point with | acquireNew hk hn hpc
  -- a number that is `lid` itself is never asked for, since its lock is being acquired
  have hother : (pc.asked = false → ¬(c.lock n).Acquires) → n ≠ lid := by
    rintro hne rfl
    cases hasked : pc.asked with
    | true => exact (hpc hasked).1 rfl
    | false => exact hne hasked h.acquires
  cases ho with
  | @before pc' x hasked hx =>
    refine ⟨_, [.acquire n pc', .resolve lid .acquireNew], rfl, ?_, ?_, h.online, h.alive, h.free,
      h.acquires, h.extent, .acquireNew hk hn (fun h => ?_)⟩
    · simp
    · exact hx
    · rw [hasked] at h
      cases h
  | @asks c' pc' hcalls hasked hl ha hne =>
    have hn' := hother hne
    refine ⟨c', [.acquire n pc', .resolve lid .acquireNew], rfl,
      h.apart ha hn' hcalls (fun hrun => running_of_asked hasked hrun) ?_⟩
    exact .acquireNew (hk.congr (ha.cache lid (Ne.symm hn'))) hn (fun _ => ⟨hn', hl⟩)
  | @got c' _ ha hx hl hcalls hne hdone =>
    have hn' := hother hne
    subst hdone
    refine ⟨_, [.resolve lid (.probe n)], rfl, h.apart (ha.with_calls _) hn' ?_ (fun _ => hx) ?_⟩
    · simp
    · exact .probe (hk.congr (ha.cache lid (Ne.symm hn'))) ⟨hn, hn', hl⟩

/-- A step of `acquire_wo(2)`. -/
theorem acquireTmp_goes {pc : AcquirePc} {o : Outcome} (hlid : lid ≠ 2)
    (h : c.Amid t T lid e g d rest [.acquire 2 pc, .resolve lid (.acquireTmp n)])
    (ho : c.Acquiring t T 2 pc (.resolve lid (.acquireTmp n) :: rest) o) :
    ∃ c' front', o = .done c' t ∧ c'.Amid t T lid e g d rest front' := by
  cases h.point with | acquireTmp hk hn hpc
  have hnew : ∀ c', c.Apart c' 2 → NewLid c'.lock lid n :=
    fun c' ha => ⟨hn.drawn, hn.other, (ha.lock n hn.ne_two).trans hn.held⟩
  cases ho with
  | @before pc' x hasked hx =>
    refine ⟨_, [.acquire 2 pc', .resolve lid (.acquireTmp n)], rfl, ?_, ?_, h.online, h.alive,
      h.free, h.acquires, h.extent, .acquireTmp hk hn (fun h => ?_)⟩
    · simp
    · exact hx
    · rw [hasked] at h
      cases h
  | @asks c' pc' hcalls hasked hl ha hne =>
    refine ⟨c', [.acquire 2 pc', .resolve lid (.acquireTmp n)], rfl,
      h.apart ha (Ne.symm hlid) hcalls (fun hrun => running_of_asked hasked hrun) ?_⟩
    exact .acquireTmp (hk.congr (ha.cache lid hlid)) (hnew c' ha) (fun _ => hl)
  | @got c' _ ha hx hl hcalls hne hdone =>
    subst hdone
    refine ⟨_, [.resolve lid (.copy n 2)], rfl,
      h.apart (ha.with_calls _) (Ne.symm hlid) ?_ (fun _ => hx) ?_⟩
    · simp
    · exact .copy (hk.congr (ha.cache lid hlid)) (hnew c' ha) hl

/-- The calls of the branch are those on top of `rest`. -/
theorem Client.Amid.resolves (h : c.Amid t T lid e g d rest front) :
    (c.thread T).resolves lid rest = true := by
  unfold Thread.resolves
  rw [h.calls]
  cases h.point <;> simp [resolving]

/-- A turn of the thread goes through. -/
theorem Client.Amid.turn (hlid : lid ≠ 2) (hd : d.Wf) (hcaller : AcquireCaller rest)
    (h : c.Amid t T lid e g d rest front) (hrun : front.head?.any Call.running = true)
    (htmp : ∀ n, front = [.resolve lid (.copy n 2)] → c.localExtent.sees t 2 = some d.toStr) :
    ∃ c', c.turn t w T a b = some (.done c' t) ∧
      ((∃ front', c'.Amid t T lid e g d rest front') ∨ c'.Left t T lid e g d rest) := by
  have hx := h.mutex hrun
  have hsome : (∃ c' front', c.turn t w T a b = some (.done c' t) ∧
      c'.Amid t T lid e g d rest front') → ∃ c', c.turn t w T a b = some (.done c' t) ∧
      ((∃ front', c'.Amid t T lid e g d rest front') ∨ c'.Left t T lid e g d rest) := by
    rintro ⟨c',front',hc',h'⟩
    exact ⟨c', hc', Or.inl ⟨front', h'⟩⟩
  have hone : ∀ {front'}, (∃ c', c.turn t w T a b = some (.done c' t) ∧
      c'.Amid t T lid e g d rest front') → ∃ c', c.turn t w T a b = some (.done c' t) ∧
      ((∃ front', c'.Amid t T lid e g d rest front') ∨ c'.Left t T lid e g d rest) := by
    rintro front' ⟨c',hc',h'⟩
    exact hsome ⟨c', front', hc', h'⟩
  cases h.point with
  | draw => exact hone (draw_turn h)
  | acquireNew =>
    obtain ⟨o,ho,hacq⟩ := acquire_turn (t := t) (w := w) (a := a) (b := b) h.calls hrun hx h.online
    obtain ⟨c',front',rfl,h'⟩ := acquireNew_goes h hacq
    exact hsome ⟨c', front', ho, h'⟩
  | probe => exact hsome (probe_turn h)
  | fetchNew => exact hsome (fetchNew_turn h)
  | releaseNew => exact hone (releaseNew_turn h)
  | acquireTmp =>
    obtain ⟨o,ho,hacq⟩ := acquire_turn (t := t) (w := w) (a := a) (b := b) h.calls hrun hx h.online
    obtain ⟨c',front',rfl,h'⟩ := acquireTmp_goes hlid h hacq
    exact hsome ⟨c', front', ho, h'⟩
  | copy => exact hone (copy_turn hlid (htmp _ rfl) h)
  | readTmp =>
    rcases hcopy : c.localExtent[2]? with _ | e₂
    · exact hone (readTmp_fetches h hcopy)
    · obtain ⟨c',name,dir,hc',h'⟩ := readTmp_turn hd h (by rw [hcopy]; rfl)
      exact hsome ⟨c', _, hc', h'⟩
  | fetchTmp =>
    obtain ⟨c',hc',-,h'⟩ := fetchTmp_turn hlid h
    exact hsome ⟨c', _, hc', h'⟩
  | enter => exact hone (enter_turn hlid h)
  | drop => exact hone (drop_turn hlid h)
  | releaseTmp => exact hone (releaseTmp_turn hlid h)
  | releaseCopy =>
    obtain ⟨c',hc',h'⟩ := releaseCopy_turn hcaller h
    exact ⟨c', hc', Or.inr h'⟩

/-- The thread goes on after an answer, or after it was asleep. -/
theorem Client.Amid.wake {o : Outcome} (hlid : lid ≠ 2) (h : c.Amid t T lid e g d rest front)
    (hcur : ∀ l calls, (c.thread T).calls = .acquire l (.reply .ok) :: calls → c.current t l = true)
    (ho : c.wake t T = some o) :
    ∃ c' front', o = .done c' t ∧ c'.Amid t T lid e g d rest front' := by
  have hnone : ∀ stage calls, (c.thread T).calls = .resolve lid stage :: calls → False := by
    intro stage calls hcalls
    unfold Client.wake at ho
    rw [hcalls] at ho
    cases ho
  have hnone' : ∀ l calls, (c.thread T).calls = .release l .start :: calls → False := by
    intro l calls hcalls
    unfold Client.wake at ho
    rw [hcalls] at ho
    cases ho
  cases h.point with
  | acquireNew hk hn hpc =>
    refine acquireNew_goes h (acquire_wake h.calls h.online h.free (fun hp => (hpc hp).2) ?_ ho)
    rintro rfl
    exact hcur _ _ h.calls
  | acquireTmp hk hn hpc =>
    refine acquireTmp_goes hlid h (acquire_wake h.calls h.online h.free hpc ?_ ho)
    rintro rfl
    exact hcur _ _ h.calls
  | releaseNew | releaseTmp | releaseCopy => exact (hnone' _ _ h.calls).elim
  | _ => exact (hnone _ _ h.calls).elim

end

end DisconnectedYfs.YFS
