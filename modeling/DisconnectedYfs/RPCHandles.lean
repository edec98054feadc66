import Mathlib.Data.Finset.Card
import DisconnectedYfs.TraceSystem

/-! The cache of RPC clients (`handle.cc`). An `hinfo` is counted by the handles that point to it,
and its deletion is put off by `del` until the last of them is destroyed. The critical sections of
`handle_mutex` are one step each; `safebind` holds `cl_mutex` while it binds, so that any other step
may fall between its two. -/
namespace DisconnectedYfs.RPC
open TraceSystem

/-- `hinfo`; `clMutex` is the thread that holds `cl_mutex` in order to bind, and the handle it was
called on. -/
structure Hinfo where
  cl : Option ℕ := none
  refcnt : ℤ
  del : Bool := false
  m : String
  clMutex : Option (ℕ × ℕ) := none

/-- A thread outside `safebind`, in `bind` with a new client, or back with what `safebind`
returned. -/
inductive SafebindStage where
  | idle
  | binding (id cl : ℕ)
  | returned (r : Option ℕ)
deriving DecidableEq

/-- The heap has the `hinfo` objects; a handle points to one of them or is null. Handles and clients
are numbered in the order of their creation. -/
structure HandleMgr where
  heap : ℕ → Option Hinfo := fun _ => none
  hmap : String → Option ℕ := fun _ => none
  handles : ℕ → Option (Option ℕ) := fun _ => none
  nextHandle : ℕ := 0
  nextRpcc : ℕ := 0
  stage : ℕ → SafebindStage := fun _ => .idle

inductive HandleEvent where
  | construct (m : String) (a : ℕ)
  | destruct (id : ℕ)
  | safebind (t id : ℕ)
  | bound (t : ℕ) (ok : Bool)
  | deleteHandle (m : String)
deriving DecidableEq

namespace HandleMgr

def setHinfo (s : HandleMgr) (q : ℕ) (h : Hinfo) : HandleMgr :=
  { s with heap := Function.update s.heap q (some h) }

def setStage (s : HandleMgr) (t : ℕ) (st : SafebindStage) : HandleMgr :=
  { s with stage := Function.update s.stage t st }

/-- `get_handle`; a new object is put at the free address `a`. A count that would pass `2^31`
overflows and has no result. -/
def getHandle (s : HandleMgr) (m : String) (a : ℕ) : Option (Option ℕ × HandleMgr) :=
  match s.hmap m with
  | none =>
    if (s.heap a).isNone then
      some (some a, { s.setHinfo a { refcnt := 1, m := m } with
        hmap := Function.update s.hmap m (some a) })
    else none
  | some q => (s.heap q).bind fun h =>
    if h.del then some (none, s)
    else if h.refcnt+1 < 2^31 then some (some q, s.setHinfo q { h with refcnt := h.refcnt+1 })
    else none

/-- `delete_handle_wo`. -/
def deleteHandleWo (s : HandleMgr) (m : String) : Option HandleMgr :=
  match s.hmap m with
  | none => some s
  | some q => (s.heap q).map fun h =>
    if h.refcnt = 0 then
      { s with heap := Function.update s.heap q none, hmap := Function.update s.hmap m none }
    else s.setHinfo q { h with del := true }

/-- `done_handle`. -/
def doneHandle (s : HandleMgr) (q : ℕ) : Option HandleMgr :=
  (s.heap q).bind fun h =>
    let s' := s.setHinfo q { h with refcnt := h.refcnt-1 }
    if h.refcnt-1 = 0 ∧ h.del then s'.deleteHandleWo h.m else some s'

/-- `handle::handle`. -/
def construct (s : HandleMgr) (m : String) (a : ℕ) : Option HandleMgr :=
  (s.getHandle m a).map fun (h, s) =>
    { s with
      handles := Function.update s.handles s.nextHandle (some h), nextHandle := s.nextHandle+1 }

/-- The object that a handle points to. -/
def hinfo (s : HandleMgr) (id : ℕ) : Option Hinfo := (s.handles id).join.bind s.heap

/-- `handle::~handle`. Nobody destroys a handle while a call of its `safebind` runs. -/
def destruct (s : HandleMgr) (id : ℕ) : Option HandleMgr :=
  if (s.hinfo id).any (fun h => h.clMutex.any (·.2 = id)) then none
  else (s.handles id).bind fun h =>
    let s' := { s with handles := Function.update s.handles id none }
    match h with
    | none => some s'
    | some q => s'.doneHandle q

/-- `safebind` up to its return, or up to the call of `bind`; it waits for `cl_mutex`. -/
def safebind (s : HandleMgr) (t id : ℕ) : Option HandleMgr :=
  match s.stage t, s.handles id with
  | .binding _ _, _ => none
  | _, none => none
  | _, some none => some (s.setStage t (.returned none))
  | _, some (some q) => (s.heap q).bind fun h =>
    if h.clMutex.isSome then none
    else if h.del then some (s.setStage t (.returned none))
    else
      match h.cl with
      | some c => some (s.setStage t (.returned (some c)))
      | none =>
        some { (s.setHinfo q { h with clMutex := some (t,id) }).setStage t (.binding id s.nextRpcc)
          with nextRpcc := s.nextRpcc+1 }

/-- The rest of `safebind` once `bind` has come back. -/
def bound (s : HandleMgr) (t : ℕ) (ok : Bool) : Option HandleMgr :=
  match s.stage t with
  | .binding id c => (s.handles id).join.bind fun q => (s.heap q).map fun h =>
    let h := if ok then { h with cl := some c, clMutex := none }
      else { h with del := true, clMutex := none }
    (s.setHinfo q h).setStage t (.returned h.cl)
  | _ => none

def step (s : HandleMgr) : HandleEvent → Option HandleMgr
  | .construct m a => s.construct m a
  | .destruct id => s.destruct id
  | .safebind t id => s.safebind t id
  | .bound t ok => s.bound t ok
  | .deleteHandle m => s.deleteHandleWo m

/-- How many handles point to an object. -/
def live (s : HandleMgr) (q : ℕ) : ℕ :=
  ((Finset.range s.nextHandle).filter (fun id => s.handles id = some (some q))).card

/-- A thread calls `safebind` on a handle and has got `r` from it at the end of the run. -/
def Safebinds (s : HandleMgr) (t id : ℕ) (es : List HandleEvent) (r : Option ℕ) (s' : HandleMgr) :
    Prop :=
  run step s (.safebind t id :: es) = some s' ∧ (∀ l, .safebind t l ∉ es) ∧ s'.stage t = .returned r

/-- The references that are counted: those of the handles, and the one of the constructor or
destructor that is running. -/
def refs (s : HandleMgr) (own : Option ℕ) (q : ℕ) : ℕ := s.live q + if own = some q then 1 else 0

/-- `hmap` has every object under its name, the counts are right, and a thread that binds holds the
mutex of an object without a client. -/
structure Sound (s : HandleMgr) (own : Option ℕ) : Prop where
  mapped : ∀ m q, s.hmap m = some q → ∃ h, s.heap q = some h ∧ h.m = m
  heaped : ∀ q h, s.heap q = some h → s.hmap h.m = some q
  counted : ∀ q h, s.heap q = some h → h.refcnt = s.refs own q
  pointed : ∀ q, 0 < s.refs own q → (s.heap q).isSome
  fresh : ∀ id, s.nextHandle ≤ id → s.handles id = none
  calling : ∀ t id c, s.stage t = .binding id c →
    ∃ q h, s.handles id = some (some q) ∧ s.heap q = some h ∧ h.clMutex = some (t,id) ∧ h.cl = none

section
variable {s s' : HandleMgr} {own own' : Option ℕ} {q t id c : ℕ} {m : String} {h h' : Hinfo}

@[simp] theorem refs_setHinfo (q r : ℕ) (h : Hinfo) :
    (s.setHinfo q h).refs own r = s.refs own r := rfl

@[simp] theorem refs_none (q : ℕ) : s.refs none q = s.live q := by
  simp [refs]

theorem refs_ne {r : ℕ} (hr : r ≠ q) : s.refs (some q) r = s.live r := by
  simp [refs, Ne.symm hr]

theorem Sound.id_lt {k : Option ℕ} (hs : s.Sound own) (hid : s.handles id = some k) :
    id < s.nextHandle := by
  by_contra hlt
  rw [hs.fresh id (by omega)] at hid
  cases hid

theorem Sound.live_pos (hs : s.Sound own) (hid : s.handles id = some (some q)) : 0 < s.live q := by
  apply Finset.card_pos.mpr
  exact ⟨id, Finset.mem_filter.mpr ⟨Finset.mem_range.mpr (hs.id_lt hid), hid⟩⟩

/-- The reference of a constructor becomes that of its handle. -/
theorem live_construct (own : Option ℕ) (q : ℕ) :
    live { s with
      handles := Function.update s.handles s.nextHandle (some own)
      nextHandle := s.nextHandle+1 } q =
      s.refs own q := by
  have hold : (Finset.range s.nextHandle).filter (fun id =>
      Function.update s.handles s.nextHandle (some own) id = some (some q)) =
      (Finset.range s.nextHandle).filter (fun id => s.handles id = some (some q)) := by
    apply Finset.filter_congr
    intro id hid
    have hlt := Finset.mem_range.mp hid
    rw [Function.update_of_ne (by omega)]
  unfold live refs
  dsimp only
  rw [Finset.range_add_one, Finset.filter_insert, hold]
  by_cases hq : own = some q
  · rw [if_pos (by rw [Function.update_self, hq]), if_pos hq,
      Finset.card_insert_of_notMem (by simp)]
    rfl
  · rw [if_neg (by simpa using hq), if_neg hq]
    rfl

/-- The reference of a handle becomes that of its destructor. -/
theorem Sound.refs_destruct (hs : s.Sound none) (hid : s.handles id = some own) (q : ℕ) :
    refs { s with handles := Function.update s.handles id none } own q = s.live q := by
  have hrest : (Finset.range s.nextHandle).filter (fun l =>
      Function.update s.handles id none l = some (some q)) =
      ((Finset.range s.nextHandle).filter (fun l => s.handles l = some (some q))).erase id := by
    ext l
    by_cases hl : l = id
    · subst hl
      simp
    · simp [hl]
  unfold refs live
  dsimp only
  rw [hrest]
  by_cases hq : own = some q
  · subst hq
    have hmem : id ∈ (Finset.range s.nextHandle).filter (fun l => s.handles l = some (some q)) :=
      Finset.mem_filter.mpr ⟨Finset.mem_range.mpr (hs.id_lt hid), hid⟩
    rw [if_pos rfl, Finset.card_erase_add_one hmem]
  · rw [if_neg hq, Finset.erase_eq_of_notMem]
    · rfl
    · simp [hid, hq]

/-- An update of one object. -/
theorem Sound.setHinfo (hs : s.Sound own) (hq : s.heap q = some h) (hm : h'.m = h.m)
    (hcount : h'.refcnt = s.refs own' q) (hrefs : ∀ r, r ≠ q → s.refs own' r = s.refs own r)
    (hcall : ∀ t id c, s.stage t = .binding id c → s.handles id = some (some q) →
      h.clMutex = some (t,id) → h.cl = none → h'.clMutex = some (t,id) ∧ h'.cl = none) :
    (s.setHinfo q h').Sound own' := by
  have hheap : ∀ r, r ≠ q → (s.setHinfo q h').heap r = s.heap r :=
    fun r hr => Function.update_of_ne hr _ _
  have hself : (s.setHinfo q h').heap q = some h' := Function.update_self _ _ _
  refine ⟨?_, ?_, ?_, ?_, hs.fresh, ?_⟩
  · intro m r hr
    obtain ⟨g,hg,hgm⟩ := hs.mapped m r hr
    by_cases hrq : r = q
    · subst hrq
      rw [hg] at hq
      cases hq
      exact ⟨h', hself, hm.trans hgm⟩
    · exact ⟨g, (hheap r hrq).trans hg, hgm⟩
  · intro r g hg
    by_cases hrq : r = q
    · subst hrq
      rw [hself] at hg
      cases hg
      rw [hm]
      exact hs.heaped r h hq
    · rw [hheap r hrq] at hg
      exact hs.heaped r g hg
  · intro r g hg
    by_cases hrq : r = q
    · subst hrq
      rw [hself] at hg
      cases hg
      exact hcount
    · rw [hheap r hrq] at hg
      rw [refs_setHinfo, hrefs r hrq]
      exact hs.counted r g hg
  · intro r hr
    by_cases hrq : r = q
    · rw [hrq, hself]
      rfl
    · rw [refs_setHinfo, hrefs r hrq] at hr
      rw [hheap r hrq]
      exact hs.pointed r hr
  · intro t id c ht
    obtain ⟨r,g,hid,hg,hlock,hcl⟩ := hs.calling t id c ht
    by_cases hrq : r = q
    · subst hrq
      rw [hq] at hg
      cases hg
      obtain ⟨hlock',hcl'⟩ := hcall t id c ht hid hlock hcl
      exact ⟨r, h', hid, hself, hlock', hcl'⟩
    · exact ⟨r, g, hid, (hheap r hrq).trans hg, hlock, hcl⟩

theorem Sound.setStage {r : Option ℕ} (hs : s.Sound own) (t : ℕ) :
    (s.setStage t (.returned r)).Sound own := by
  refine ⟨hs.mapped, hs.heaped, hs.counted, hs.pointed, hs.fresh, ?_⟩
  intro u id c hu
  by_cases hut : u = t
  · subst hut
    simp [HandleMgr.setStage] at hu
  · exact hs.calling u id c (by simpa [HandleMgr.setStage, hut] using hu)

theorem Sound.getHandle {a : ℕ} {k : Option ℕ} (hs : s.Sound none)
    (h : s.getHandle m a = some (k,s')) : s'.Sound k := by
  unfold HandleMgr.getHandle at h
  split at h
  · rename_i hm
    split_ifs at h with hfree
    cases h
    rw [Option.isNone_iff_eq_none] at hfree
    have hself : (s.setHinfo a { refcnt := 1, m := m }).heap a = some { refcnt := 1, m := m } :=
      Function.update_self _ _ _
    have hheap : ∀ r, r ≠ a → (s.setHinfo a { refcnt := 1, m := m }).heap r = s.heap r :=
      fun r hr => Function.update_of_ne hr _ _
    have hnew : ∀ {r g}, s.heap r = some g → r ≠ a := by
      intro r g hr hra
      rw [hra, hfree] at hr
      cases hr
    have hnone : s.live a = 0 := by
      by_contra hpos
      have := hs.pointed a (by unfold refs; omega)
      simp [hfree] at this
    refine ⟨?_, ?_, ?_, ?_, hs.fresh, ?_⟩
    · intro n r hr
      by_cases hn : n = m
      · subst hn
        have hra : a = r := by simpa using hr
        subst hra
        exact ⟨{ refcnt := 1, m := n }, hself, rfl⟩
      · obtain ⟨g,hg,hgm⟩ := hs.mapped n r (by simpa [Function.update_of_ne hn] using hr)
        exact ⟨g, (hheap r (hnew hg)).trans hg, hgm⟩
    · intro r g hg
      by_cases hra : r = a
      · subst hra
        cases hself.symm.trans hg
        exact Function.update_self _ _ _
      · have hmap := hs.heaped r g ((hheap r hra).symm.trans hg)
        have hgm : g.m ≠ m := by
          intro heq
          rw [heq, hm] at hmap
          cases hmap
        exact (Function.update_of_ne hgm _ _).trans hmap
    · intro r g hg
      by_cases hra : r = a
      · subst hra
        cases hself.symm.trans hg
        have hone : s.refs (some r) r = 1 := by simp [refs, hnone]
        exact congrArg Nat.cast hone.symm
      · have := hs.counted r g ((hheap r hra).symm.trans hg)
        rw [refs_none, ← refs_ne hra] at this
        exact this
    · intro r hr
      by_cases hra : r = a
      · subst hra
        exact Option.isSome_iff_exists.mpr ⟨{ refcnt := 1, m := m }, hself⟩
      · have hpos : 0 < s.refs (some a) r := hr
        rw [refs_ne hra, ← refs_none] at hpos
        exact (congrArg Option.isSome (hheap r hra)).trans (hs.pointed r hpos)
    · intro t id c ht
      obtain ⟨r,g,hid,hg,hlock,hcl⟩ := hs.calling t id c ht
      exact ⟨r, g, hid, (hheap r (hnew hg)).trans hg, hlock, hcl⟩
  · rename_i q hm
    obtain ⟨g,hg,h⟩ := Option.bind_eq_some_iff.mp h
    split_ifs at h
    · cases h
      exact hs
    · cases h
      refine hs.setHinfo hg rfl ?_ (fun r hr => by rw [refs_ne hr, refs_none]) ?_
      · have := hs.counted q g hg
        simp [refs] at this ⊢
        exact this
      · intro t id c _ _ hlock hcl
        exact ⟨hlock, hcl⟩

theorem Sound.deleteHandleWo (hs : s.Sound none) (h : s.deleteHandleWo m = some s') :
    s'.Sound none := by
  unfold HandleMgr.deleteHandleWo at h
  split at h
  · cases h
    exact hs
  · rename_i q hm
    obtain ⟨g,hg,h⟩ := Option.map_eq_some_iff.mp h
    split_ifs at h with hzero
    · subst h
      have hnone : s.live q = 0 := by
        have := hs.counted q g hg
        rw [refs_none] at this
        omega
      obtain ⟨g',hg',hgm⟩ := hs.mapped m q hm
      cases hg.symm.trans hg'
      refine ⟨?_, ?_, ?_, ?_, hs.fresh, ?_⟩
      · intro n r hr
        by_cases hn : n = m
        · subst hn
          simp at hr
        · obtain ⟨f,hf,hfm⟩ := hs.mapped n r (by simpa [Function.update_of_ne hn] using hr)
          have hrq : r ≠ q := by
            rintro rfl
            cases hg.symm.trans hf
            exact hn (hfm.symm.trans hgm)
          exact ⟨f, (Function.update_of_ne hrq _ _).trans hf, hfm⟩
      · intro r f hf
        by_cases hrq : r = q
        · subst hrq
          simp at hf
        · have hmap := hs.heaped r f (by simpa [Function.update_of_ne hrq] using hf)
          have hfm : f.m ≠ m := by
            intro heq
            rw [heq, hm] at hmap
            exact hrq (Option.some.inj hmap).symm
          exact (Function.update_of_ne hfm _ _).trans hmap
      · intro r f hf
        by_cases hrq : r = q
        · subst hrq
          simp at hf
        · exact hs.counted r f (by simpa [Function.update_of_ne hrq] using hf)
      · intro r hr
        have hpos : 0 < s.refs none r := hr
        have hrq : r ≠ q := by
          rintro rfl
          rw [refs_none, hnone] at hpos
          omega
        exact (congrArg Option.isSome (Function.update_of_ne hrq _ _)).trans (hs.pointed r hpos)
      · intro t id c ht
        obtain ⟨r,f,hid,hf,hlock,hcl⟩ := hs.calling t id c ht
        have hrq : r ≠ q := by
          rintro rfl
          have := hs.live_pos hid
          omega
        exact ⟨r, f, hid, (Function.update_of_ne hrq _ _).trans hf, hlock, hcl⟩
    · subst h
      exact hs.setHinfo hg rfl (hs.counted q g hg) (fun _ _ => rfl)
        (fun _ _ _ _ _ hlock hcl => ⟨hlock, hcl⟩)

/-- The destructor gives its reference back. -/
theorem Sound.release (hs : s.Sound (some q)) (hq : s.heap q = some h) :
    (s.setHinfo q { h with refcnt := h.refcnt-1 }).Sound none := by
  refine hs.setHinfo hq rfl ?_ (fun r hr => by rw [refs_ne hr, refs_none])
    (fun _ _ _ _ _ hlock hcl => ⟨hlock, hcl⟩)
  have hcount := hs.counted q h hq
  have hone : s.refs (some q) q = s.live q + 1 := by simp [refs]
  rw [refs_none]
  dsimp only
  omega

theorem Sound.doneHandle (hs : s.Sound (some q)) (h : s.doneHandle q = some s') :
    s'.Sound none := by
  obtain ⟨g,hg,h⟩ := Option.bind_eq_some_iff.mp h
  dsimp only at h
  split_ifs at h
  · exact (hs.release hg).deleteHandleWo h
  · cases h
    exact hs.release hg

theorem Sound.attach (hs : s.Sound own) :
    Sound { s with
      handles := Function.update s.handles s.nextHandle (some own), nextHandle := s.nextHandle+1 }
      none := by
  refine ⟨hs.mapped, hs.heaped, ?_, ?_, ?_, ?_⟩
  · intro q h hq
    rw [refs_none, live_construct]
    exact hs.counted q h hq
  · intro q hq
    rw [refs_none, live_construct] at hq
    exact hs.pointed q hq
  · intro id hid
    dsimp only at hid ⊢
    rw [Function.update_of_ne (by omega)]
    exact hs.fresh id (by omega)
  · intro t id c ht
    obtain ⟨q,h,hid,hrest⟩ := hs.calling t id c ht
    have hlt := hs.id_lt hid
    exact ⟨q, h, (Function.update_of_ne (by omega) _ _).trans hid, hrest⟩

theorem Sound.detach (hs : s.Sound none) (hid : s.handles id = some own)
    (hfree : ∀ t c, s.stage t ≠ .binding id c) :
    Sound { s with handles := Function.update s.handles id none } own := by
  refine ⟨hs.mapped, hs.heaped, ?_, ?_, ?_, ?_⟩
  · intro q h hq
    rw [hs.refs_destruct hid, ← refs_none]
    exact hs.counted q h hq
  · intro q hq
    rw [hs.refs_destruct hid, ← refs_none] at hq
    exact hs.pointed q hq
  · intro l hl
    by_cases hlid : l = id
    · subst hlid
      exact Function.update_self _ _ _
    · exact (Function.update_of_ne hlid _ _).trans (hs.fresh l hl)
  · intro t l c ht
    obtain ⟨q,h,hl,hrest⟩ := hs.calling t l c ht
    have hlid : l ≠ id := by
      rintro rfl
      exact hfree t c ht
    exact ⟨q, h, (Function.update_of_ne hlid _ _).trans hl, hrest⟩

theorem hinfo_eq (hid : s.handles id = some (some q)) : s.hinfo id = s.heap q := by
  simp [hinfo, hid]

theorem Sound.construct {a : ℕ} (hs : s.Sound none) (h : s.construct m a = some s') :
    s'.Sound none := by
  obtain ⟨⟨k,s₁⟩,hget,rfl⟩ := Option.map_eq_some_iff.mp h
  exact (hs.getHandle hget).attach

theorem Sound.destruct_free (hs : s.Sound none) (h : s.destruct id = some s') :
    ∀ t c, s.stage t ≠ .binding id c := by
  intro t c ht
  obtain ⟨q,g,hid,hg,hlock,-⟩ := hs.calling t id c ht
  unfold HandleMgr.destruct at h
  rw [if_pos (by rw [hinfo_eq hid, hg]; simp [hlock])] at h
  cases h

/-- A handle that is destroyed is null, or its object loses a reference. -/
theorem destruct_cases (h : s.destruct id = some s') :
    (s.handles id = some none ∧
      s' = { s with handles := Function.update s.handles id none }) ∨
    ∃ q, s.handles id = some (some q) ∧
      HandleMgr.doneHandle { s with handles := Function.update s.handles id none } q = some s' := by
  unfold HandleMgr.destruct at h
  split_ifs at h with hbusy
  obtain ⟨k,hid,h⟩ := Option.bind_eq_some_iff.mp h
  cases k with
  | none =>
    cases h
    exact .inl ⟨hid, rfl⟩
  | some q => exact .inr ⟨q, hid, h⟩

theorem Sound.destruct (hs : s.Sound none) (h : s.destruct id = some s') : s'.Sound none := by
  have hfree := hs.destruct_free h
  obtain ⟨hid,rfl⟩ | ⟨q,hid,hdone⟩ := destruct_cases h
  · exact hs.detach hid hfree
  · exact (hs.detach hid hfree).doneHandle hdone

theorem hinfo_some (hinfo : s.hinfo id = some h) :
    ∃ q, s.handles id = some (some q) ∧ s.heap q = some h := by
  obtain ⟨q,hid,hq⟩ := Option.bind_eq_some_iff.mp hinfo
  exact ⟨q, Option.join_eq_some_iff.mp hid, hq⟩

/-- The state in which a thread has gone to bind. -/
def bindStart (s : HandleMgr) (t id q : ℕ) (h : Hinfo) : HandleMgr :=
  { (s.setHinfo q { h with clMutex := some (t,id) }).setStage t (.binding id s.nextRpcc)
    with nextRpcc := s.nextRpcc+1 }

/-- What `safebind` does before it binds: a marked object has no client for anyone. -/
inductive Safebind (s : HandleMgr) (t id : ℕ) : HandleMgr → Prop
  | null {k : Option ℕ} (hid : s.handles id = some k)
      (hnull : ∀ h, s.hinfo id = some h → h.del = true) :
      Safebind s t id (s.setStage t (.returned none))
  | cached {h : Hinfo} {c : ℕ} (hinfo : s.hinfo id = some h) (hdel : h.del = false)
      (hcl : h.cl = some c) :
      Safebind s t id (s.setStage t (.returned (some c)))
  | binds {q : ℕ} {h : Hinfo} (hid : s.handles id = some (some q)) (hq : s.heap q = some h)
      (hdel : h.del = false) (hcl : h.cl = none) (hunlocked : h.clMutex = none) :
      Safebind s t id (s.bindStart t id q h)

theorem safebind_cases (hsafe : s.safebind t id = some s') : s.Safebind t id s' := by
  unfold HandleMgr.safebind at hsafe
  split at hsafe
  · cases hsafe
  · cases hsafe
  · rename_i hid _
    cases hsafe
    refine .null hid ?_
    intro h hinfo
    simp [HandleMgr.hinfo, hid] at hinfo
  · rename_i q hid _
    obtain ⟨g,hg,hsafe⟩ := Option.bind_eq_some_iff.mp hsafe
    split_ifs at hsafe with hlock hdel
    · cases hsafe
      refine .null hid ?_
      intro h hinfo
      rw [hinfo_eq hid, hg] at hinfo
      cases hinfo
      exact hdel
    · rw [Bool.not_eq_true] at hdel
      split at hsafe
      · rename_i c hcl
        cases hsafe
        exact .cached ((hinfo_eq hid).trans hg) hdel hcl
      · rename_i hcl
        cases hsafe
        exact .binds hid hg hdel hcl (by simpa using hlock)

theorem Sound.safebind (hs : s.Sound none) (h : s.safebind t id = some s') : s'.Sound none := by
  cases safebind_cases h with
  | null => exact hs.setStage t
  | cached => exact hs.setStage t
  | @binds q g hid hg _ hcl hunlocked =>
    have hlocks : (s.setHinfo q { g with clMutex := some (t,id) }).Sound none := by
      refine hs.setHinfo hg rfl (hs.counted q g hg) (fun _ _ => rfl) ?_
      intro u l c _ _ hu
      rw [hunlocked] at hu
      cases hu
    refine ⟨hlocks.mapped, hlocks.heaped, hlocks.counted, hlocks.pointed, hlocks.fresh, ?_⟩
    intro u l c hu
    by_cases hut : u = t
    · subst hut
      obtain ⟨rfl,rfl⟩ : id = l ∧ s.nextRpcc = c := by
        simpa [bindStart, HandleMgr.setStage] using hu
      exact ⟨q, _, hid, Function.update_self _ _ _, rfl, hcl⟩
    · exact hlocks.calling u l c (by simpa [bindStart, HandleMgr.setStage, hut] using hu)

/-- The object after `bind`. -/
def bindEnd (h : Hinfo) (c : ℕ) (ok : Bool) : Hinfo :=
  if ok then { h with cl := some c, clMutex := none } else { h with del := true, clMutex := none }

theorem Sound.bound_cases {ok : Bool} (hs : s.Sound none) (hbound : s.bound t ok = some s') :
    ∃ id c q h, s.stage t = .binding id c ∧ s.handles id = some (some q) ∧ s.heap q = some h ∧
      h.clMutex = some (t,id) ∧ h.cl = none ∧
      s' = (s.setHinfo q (bindEnd h c ok)).setStage t (.returned (bindEnd h c ok).cl) := by
  unfold HandleMgr.bound at hbound
  split at hbound
  · rename_i id c ht
    obtain ⟨q,h,hid,hq,hlock,hcl⟩ := hs.calling t id c ht
    rw [hid] at hbound
    simp only [Option.join_some, Option.bind_some, hq, Option.map_some, Option.some.injEq] at hbound
    exact ⟨id, c, q, h, ht, hid, hq, hlock, hcl, hbound.symm⟩
  · cases hbound

theorem Sound.bound {ok : Bool} (hs : s.Sound none) (h : s.bound t ok = some s') :
    s'.Sound none := by
  obtain ⟨id,c,q,g,ht,hid,hg,hlock,-,rfl⟩ := hs.bound_cases h
  -- the thread leaves `safebind` before it lets the mutex go
  refine (hs.setStage t).setHinfo hg (by cases ok <;> rfl) ?_ (fun _ _ => rfl) ?_
  · cases ok <;> exact hs.counted q g hg
  · intro u l c hu _ hulock
    exfalso
    rw [hlock] at hulock
    cases hulock
    simp [HandleMgr.setStage] at hu

theorem Sound.step {e : HandleEvent} (hs : s.Sound none) (h : s.step e = some s') :
    s'.Sound none := by
  cases e with
  | construct m a => exact hs.construct h
  | destruct id => exact hs.destruct h
  | safebind t id => exact hs.safebind h
  | bound t ok => exact hs.bound h
  | deleteHandle m => exact hs.deleteHandleWo h

theorem Sound.init : ({} : HandleMgr).Sound none := by
  constructor <;> simp [refs, live]

theorem Sound.of_run {es : List HandleEvent} (hs : s.Sound none)
    (hrun : run HandleMgr.step s es = some s') : s'.Sound none :=
  run_invariant (I := fun s => s.Sound none) (fun _ _ _ hs h => hs.step h) hs hrun

/-- What the critical sections of `handle_mutex` leave alone. -/
structure Frame (s s' : HandleMgr) : Prop where
  stage : s'.stage = s.stage
  handles : s'.handles = s.handles
  next : s'.nextHandle = s.nextHandle

theorem getHandle_frame {a : ℕ} {k : Option ℕ} (h : s.getHandle m a = some (k,s')) :
    s.Frame s' := by
  unfold HandleMgr.getHandle at h
  split at h
  · split_ifs at h
    cases h
    exact ⟨rfl, rfl, rfl⟩
  · obtain ⟨g,-,h⟩ := Option.bind_eq_some_iff.mp h
    split_ifs at h
    · cases h
      exact ⟨rfl, rfl, rfl⟩
    · cases h
      exact ⟨rfl, rfl, rfl⟩

theorem deleteHandleWo_frame (h : s.deleteHandleWo m = some s') : s.Frame s' := by
  unfold HandleMgr.deleteHandleWo at h
  split at h
  · cases h
    exact ⟨rfl, rfl, rfl⟩
  · obtain ⟨g,-,h⟩ := Option.map_eq_some_iff.mp h
    split_ifs at h
    · subst h
      exact ⟨rfl, rfl, rfl⟩
    · subst h
      exact ⟨rfl, rfl, rfl⟩

theorem doneHandle_frame (h : s.doneHandle q = some s') : s.Frame s' := by
  obtain ⟨g,-,h⟩ := Option.bind_eq_some_iff.mp h
  dsimp only at h
  split_ifs at h
  · obtain ⟨hstage,hhandles,hnext⟩ := deleteHandleWo_frame h
    exact ⟨hstage, hhandles, hnext⟩
  · cases h
    exact ⟨rfl, rfl, rfl⟩

/-- A constructor changes at most the count of an object that is there. -/
theorem getHandle_heap {a : ℕ} {k : Option ℕ} (hget : s.getHandle m a = some (k,s'))
    (hq : s.heap q = some h) : ∃ n, s'.heap q = some { h with refcnt := n } := by
  unfold HandleMgr.getHandle at hget
  split at hget
  · split_ifs at hget with hfree
    cases hget
    have hqa : q ≠ a := by
      rintro rfl
      simp [hq] at hfree
    exact ⟨h.refcnt, (Function.update_of_ne hqa _ _).trans hq⟩
  · rename_i r _
    obtain ⟨g,hg,hget⟩ := Option.bind_eq_some_iff.mp hget
    split_ifs at hget
    · cases hget
      exact ⟨h.refcnt, hq⟩
    · cases hget
      by_cases hqr : q = r
      · subst hqr
        cases hg.symm.trans hq
        exact ⟨_, Function.update_self _ _ _⟩
      · exact ⟨h.refcnt, (Function.update_of_ne hqr _ _).trans hq⟩

/-- An object that a handle points to is not touched by the deletion of another name, nor when it
is marked already. -/
theorem Sound.deleteHandleWo_heap (hs : s.Sound none) (hdel : s.deleteHandleWo m = some s')
    (hq : s.heap q = some h) (hlive : 0 < s.live q) (hm : h.m = m → h.del = true) :
    s'.heap q = some h := by
  unfold HandleMgr.deleteHandleWo at hdel
  split at hdel
  · cases hdel
    exact hq
  · rename_i r hr
    obtain ⟨g,hg,hdel⟩ := Option.map_eq_some_iff.mp hdel
    have hcount := hs.counted q h hq
    rw [refs_none] at hcount
    by_cases hqr : q = r
    · subst hqr
      obtain ⟨g',hg',hgm⟩ := hs.mapped m q hr
      cases hg.symm.trans hq
      cases hg.symm.trans hg'
      rw [if_neg (by omega)] at hdel
      subst hdel
      have hmarked : { h with del := true } = h := by rw [← hm hgm]
      rw [hmarked]
      exact Function.update_self _ _ _
    · split_ifs at hdel
      · subst hdel
        exact (Function.update_of_ne hqr _ _).trans hq
      · subst hdel
        exact (Function.update_of_ne hqr _ _).trans hq

theorem Sound.doneHandle_heap {r : ℕ} (hs : s.Sound (some r)) (hdone : s.doneHandle r = some s')
    (hq : s.heap q = some h) (hlive : 0 < s.live q) :
    ∃ n, s'.heap q = some { h with refcnt := n } := by
  obtain ⟨g,hg,hdone⟩ := Option.bind_eq_some_iff.mp hdone
  have hrelease := hs.release hg
  have hheap : ∃ n, (s.setHinfo r { g with refcnt := g.refcnt-1 }).heap q =
      some { h with refcnt := n } := by
    by_cases hqr : q = r
    · subst hqr
      cases hg.symm.trans hq
      exact ⟨_, Function.update_self _ _ _⟩
    · exact ⟨h.refcnt, (Function.update_of_ne hqr _ _).trans hq⟩
  obtain ⟨n,hn⟩ := hheap
  dsimp only at hdone
  split_ifs at hdone with hlast
  · -- the name is that of the object itself only if it is marked
    refine ⟨n, hrelease.deleteHandleWo_heap hdone hn hlive ?_⟩
    intro hm
    have hqr : some q = some r := by
      rw [← hrelease.heaped q _ hn, ← hs.heaped r g hg]
      exact congrArg s.hmap hm
    cases hqr
    cases hg.symm.trans hq
    exact hlast.2
  · cases hdone
    exact ⟨n, hn⟩

variable {e : HandleEvent}

/-- A handle that was there stays what it is until it is destroyed. -/
theorem Sound.step_handles {k : Option ℕ} (hs : s.Sound none) (hstep : s.step e = some s')
    (hlt : id < s.nextHandle) :
    id < s'.nextHandle ∧
    (s'.handles id = some k → s.handles id = some k ∧ e ≠ .destruct id) := by
  cases e with
  | construct m a =>
    obtain ⟨⟨j,s₁⟩,hget,rfl⟩ := Option.map_eq_some_iff.mp hstep
    obtain ⟨-,hhandles,hnext⟩ := getHandle_frame hget
    dsimp only at *
    rw [hnext, hhandles, Function.update_of_ne (by omega)]
    exact ⟨by omega, fun hk => ⟨hk, by simp⟩⟩
  | destruct l =>
    have hleft : s'.nextHandle = s.nextHandle ∧ s'.handles = Function.update s.handles l none := by
      obtain ⟨-,rfl⟩ | ⟨q,-,hdone⟩ := destruct_cases hstep
      · exact ⟨rfl, rfl⟩
      · obtain ⟨-,hhandles,hnext⟩ := doneHandle_frame hdone
        exact ⟨hnext, hhandles⟩
    rw [hleft.1, hleft.2]
    refine ⟨hlt, ?_⟩
    intro hk
    by_cases hid : id = l
    · simp [hid] at hk
    · rw [Function.update_of_ne hid] at hk
      refine ⟨hk, ?_⟩
      rintro ⟨⟩
      exact hid rfl
  | safebind t l =>
    cases safebind_cases hstep <;> exact ⟨hlt, fun hk => ⟨hk, by simp⟩⟩
  | bound t ok =>
    obtain ⟨-,-,-,-,-,-,-,-,-,rfl⟩ := hs.bound_cases hstep
    exact ⟨hlt, fun hk => ⟨hk, by simp⟩⟩
  | deleteHandle m =>
    obtain ⟨-,hhandles,hnext⟩ := deleteHandleWo_frame hstep
    rw [hhandles, hnext]
    exact ⟨hlt, fun hk => ⟨hk, by simp⟩⟩

/-- Only `safebind` moves a thread. -/
theorem Sound.step_stage (hs : s.Sound none) (hstep : s.step e = some s')
    (hsafebind : ∀ l, e ≠ .safebind t l) (hbound : ∀ ok, e ≠ .bound t ok) :
    s'.stage t = s.stage t := by
  cases e with
  | construct m a =>
    obtain ⟨⟨j,s₁⟩,hget,rfl⟩ := Option.map_eq_some_iff.mp hstep
    exact congrFun (getHandle_frame hget).stage t
  | destruct l =>
    obtain ⟨-,rfl⟩ | ⟨q,-,hdone⟩ := destruct_cases hstep
    · rfl
    · exact congrFun (doneHandle_frame hdone).stage t
  | safebind u l =>
    have hut : t ≠ u := by
      rintro rfl
      exact hsafebind l rfl
    cases safebind_cases hstep <;> exact Function.update_of_ne hut _ _
  | bound u ok =>
    have hut : t ≠ u := by
      rintro rfl
      exact hbound ok rfl
    obtain ⟨-,-,-,-,-,-,-,-,-,rfl⟩ := hs.bound_cases hstep
    exact Function.update_of_ne hut _ _
  | deleteHandle m => exact congrFun (deleteHandleWo_frame hstep).stage t

/-- The object of a handle changes its count at most, as long as its name is not deleted and nobody
binds for it. -/
theorem Sound.step_hinfo (hs : s.Sound none) (hstep : s.step e = some s')
    (hinfo : s.hinfo id = some h) (hdelete : e ≠ .deleteHandle h.m) (hdestruct : e ≠ .destruct id)
    (hbound : ∀ u ok l c, e = .bound u ok → s.stage u = .binding l c → s.handles l ≠ s.handles id)
    (hopen : h.cl = none → h.clMutex.isSome) : ∃ n, s'.hinfo id = some { h with refcnt := n } := by
  obtain ⟨q,hid,hq⟩ := hinfo_some hinfo
  have hlive := hs.live_pos hid
  have hlt := hs.id_lt hid
  cases e with
  | construct m a =>
    obtain ⟨⟨j,s₁⟩,hget,rfl⟩ := Option.map_eq_some_iff.mp hstep
    obtain ⟨n,hn⟩ := getHandle_heap hget hq
    have hframe := getHandle_frame hget
    refine ⟨n, (hinfo_eq (q := q) ?_).trans hn⟩
    dsimp only
    rw [hframe.handles, hframe.next, Function.update_of_ne (by omega)]
    exact hid
  | destruct l =>
    have hne : id ≠ l := by
      rintro rfl
      exact hdestruct rfl
    have hid' : Function.update s.handles l none id = some (some q) := by
      rw [Function.update_of_ne hne]
      exact hid
    have hfree := hs.destruct_free hstep
    obtain ⟨-,rfl⟩ | ⟨r,hl,hdone⟩ := destruct_cases hstep
    · exact ⟨h.refcnt, (hinfo_eq hid').trans hq⟩
    · have hdetach := hs.detach hl hfree
      obtain ⟨n,hn⟩ := hdetach.doneHandle_heap hdone hq (hdetach.live_pos hid')
      refine ⟨n, (hinfo_eq (q := q) ?_).trans hn⟩
      rw [(doneHandle_frame hdone).handles]
      exact hid'
  | safebind t l =>
    cases safebind_cases hstep with
    | null => exact ⟨h.refcnt, hinfo⟩
    | cached => exact ⟨h.refcnt, hinfo⟩
    | @binds r g hl hg _ hcl hunlocked =>
      have hrq : q ≠ r := by
        rintro rfl
        cases hq.symm.trans hg
        have := hopen hcl
        rw [hunlocked] at this
        cases this
      refine ⟨h.refcnt, (hinfo_eq (q := q) ?_).trans ((Function.update_of_ne hrq _ _).trans hq)⟩
      exact hid
  | bound t ok =>
    obtain ⟨l,c,r,g,ht,hl,hg,-,-,rfl⟩ := hs.bound_cases hstep
    have hrq : q ≠ r := by
      rintro rfl
      exact hbound t ok l c rfl ht (hl.trans hid.symm)
    refine ⟨h.refcnt, (hinfo_eq (q := q) ?_).trans ((Function.update_of_ne hrq _ _).trans hq)⟩
    exact hid
  | deleteHandle m =>
    have hm : h.m = m → h.del = true := by
      rintro rfl
      exact absurd rfl hdelete
    refine ⟨h.refcnt, (hinfo_eq (q := q) ?_).trans (hs.deleteHandleWo_heap hstep hq hlive hm)⟩
    rw [(deleteHandleWo_frame hstep).handles]
    exact hid

/-- As long as the handle lives, `safebind` gives the client `c`. -/
structure Serves (s : HandleMgr) (id c : ℕ) (m : String) : Prop where
  old : id < s.nextHandle
  client : ∀ k, s.handles id = some k →
    ∃ h, s.hinfo id = some h ∧ h.m = m ∧ h.cl = some c ∧ h.del = false

/-- A thread that has called `safebind` on a handle for the name `m`, which has not been deleted. -/
inductive Called (s : HandleMgr) (t id : ℕ) (m : String) : Prop
  | null (ht : s.stage t = .returned none)
  | serves (c : ℕ) (ht : s.stage t = .returned (some c)) (hc : s.Serves id c m)
  | binds (c : ℕ) (h : Hinfo) (ht : s.stage t = .binding id c) (hinfo : s.hinfo id = some h)
      (hm : h.m = m) (hdel : h.del = false)

theorem Serves.step (hs : s.Sound none) (hc : s.Serves id c m) (hstep : s.step e = some s')
    (hdelete : e ≠ .deleteHandle m) : s'.Serves id c m := by
  refine ⟨(hs.step_handles (k := none) hstep hc.old).1, ?_⟩
  intro k hk
  obtain ⟨hk₀,hdestruct⟩ := (hs.step_handles hstep hc.old).2 hk
  obtain ⟨h,hinfo,rfl,hcl,hdel⟩ := hc.client k hk₀
  have hbound : ∀ u ok l c, e = .bound u ok → s.stage u = .binding l c →
      s.handles l ≠ s.handles id := by
    intro u ok l c _ hu heq
    obtain ⟨q,g,hl,hg,-,hnone⟩ := hs.calling u l c hu
    rw [hinfo_eq (heq.symm.trans hl), hg] at hinfo
    cases hinfo
    rw [hnone] at hcl
    cases hcl
  have hopen : h.cl = none → h.clMutex.isSome := by
    intro hnone
    rw [hnone] at hcl
    cases hcl
  obtain ⟨n,hn⟩ := hs.step_hinfo hstep hinfo hdelete hdestruct hbound hopen
  exact ⟨_, hn, rfl, hcl, hdel⟩

theorem Serves.run {es : List HandleEvent} (hs : s.Sound none) (hc : s.Serves id c m)
    (hrun : run HandleMgr.step s es = some s') (hdelete : .deleteHandle m ∉ es) :
    s'.Serves id c m := by
  have hboth : s'.Sound none ∧ s'.Serves id c m := by
    refine Meets.invariant (C := fun _ e => e ≠ .deleteHandle m)
      (I := fun s => s.Sound none ∧ s.Serves id c m) ?_ ⟨hs, hc⟩ (Meets.of_labels ?_ s) hrun
    · intro s e s' hI hne hstep
      exact ⟨hI.1.step hstep, hI.2.step hI.1 hstep hne⟩
    · rintro e he rfl
      exact hdelete he
  exact hboth.2

/-- Whoever comes back with a client has got the one that every later call gets. -/
theorem Called.step (hs : s.Sound none) (hcall : s.Called t id m) (hstep : s.step e = some s')
    (hsafebind : ∀ l, e ≠ .safebind t l) (hdelete : e ≠ .deleteHandle m) : s'.Called t id m := by
  by_cases hbound : ∃ ok, e = .bound t ok
  · obtain ⟨ok,rfl⟩ := hbound
    obtain ⟨l,c,q,g,ht,hl,hg,-,hnone,rfl⟩ := hs.bound_cases hstep
    cases hcall with
    | null ht' => cases ht.symm.trans ht'
    | serves _ ht' => cases ht.symm.trans ht'
    | binds c' h ht' hinfo hm hdel =>
      cases ht.symm.trans ht'
      rw [hinfo_eq hl, hg] at hinfo
      cases hinfo
      cases ok with
      | true =>
        refine .serves c (Function.update_self _ _ _) ⟨hs.id_lt hl, ?_⟩
        intro k _
        refine ⟨bindEnd g c true, (hinfo_eq (q := q) ?_).trans
          (Function.update_self _ _ _), hm, rfl,
          hdel⟩
        exact hl
      | false =>
        refine .null ((Function.update_self _ _ _).trans ?_)
        exact congrArg SafebindStage.returned hnone
  · have hstage := hs.step_stage hstep hsafebind (fun ok h => hbound ⟨ok, h⟩)
    cases hcall with
    | null ht => exact .null (hstage.trans ht)
    | serves c ht hc => exact .serves c (hstage.trans ht) (hc.step hs hstep hdelete)
    | binds c h ht hinfo hm hdel =>
      subst hm
      obtain ⟨q,g,hid,hg,hlock,-⟩ := hs.calling t id c ht
      obtain rfl : g = h := by
        rw [hinfo_eq hid, hg] at hinfo
        exact Option.some.inj hinfo
      have hdestruct : e ≠ .destruct id := by
        rintro rfl
        exact hs.destruct_free hstep t c ht
      have hother : ∀ u ok l c, e = .bound u ok → s.stage u = .binding l c →
          s.handles l ≠ s.handles id := by
        rintro u ok l c' rfl hu heq
        obtain ⟨r,f,hl,hf,hlock',-⟩ := hs.calling u l c' hu
        cases hl.symm.trans (heq.trans hid)
        cases hf.symm.trans hg
        cases hlock.symm.trans hlock'
        exact hbound ⟨ok, rfl⟩
      obtain ⟨n,hn⟩ := hs.step_hinfo hstep hinfo hdelete hdestruct hother
        (fun _ => by rw [hlock]; rfl)
      exact .binds c _ (hstage.trans ht) hn rfl hdel

theorem Called.run {es : List HandleEvent} (hs : s.Sound none) (hcall : s.Called t id m)
    (hrun : run HandleMgr.step s es = some s') (hsafebind : ∀ l, .safebind t l ∉ es)
    (hdelete : .deleteHandle m ∉ es) : s'.Called t id m := by
  have hboth : s'.Sound none ∧ s'.Called t id m := by
    refine Meets.invariant (C := fun _ e => (∀ l, e ≠ .safebind t l) ∧ e ≠ .deleteHandle m)
      (I := fun s => s.Sound none ∧ s.Called t id m) ?_ ⟨hs, hcall⟩ (Meets.of_labels ?_ s) hrun
    · intro s e s' hI hne hstep
      exact ⟨hI.1.step hstep, hI.2.step hI.1 hstep hne.1 hne.2⟩
    · intro e he
      refine ⟨?_, ?_⟩
      · rintro l rfl
        exact hsafebind l he
      · rintro rfl
        exact hdelete he
  exact hboth.2

/-- What a thread has got from `safebind` it keeps until it calls again. -/
theorem Sound.returned_stays {es : List HandleEvent} {r : Option ℕ} (hs : s.Sound none)
    (ht : s.stage t = .returned r) (hrun : run HandleMgr.step s es = some s')
    (hsafebind : ∀ l, .safebind t l ∉ es) : s'.stage t = .returned r := by
  have hboth : s'.Sound none ∧ s'.stage t = .returned r := by
    refine Meets.invariant (C := fun _ e => ∀ l, e ≠ .safebind t l)
      (I := fun s => s.Sound none ∧ s.stage t = .returned r) ?_ ⟨hs, ht⟩ (Meets.of_labels ?_ s) hrun
    · rintro s e s' ⟨hs,ht⟩ hne hstep
      refine ⟨hs.step hstep, ?_⟩
      rw [hs.step_stage hstep hne, ht]
      rintro ok rfl
      obtain ⟨l,c,-,-,hbinding,-⟩ := hs.bound_cases hstep
      cases ht.symm.trans hbinding
    · rintro e he l rfl
      exact hsafebind l he
  exact hboth.2

/-- A null handle has no client. -/
theorem Safebinds.hinfo {es : List HandleEvent} (hs : s.Sound none)
    (hcall : s.Safebinds t id es (some c) s') : ∃ h, s.hinfo id = some h := by
  obtain ⟨hrun,hsafebind,hret⟩ := hcall
  obtain ⟨s₁,hstep,hrun⟩ := Option.bind_eq_some_iff.mp hrun
  have hs₁ := hs.step hstep
  cases safebind_cases hstep with
  | null =>
    have hnull := hs₁.returned_stays (Function.update_self _ _ _) hrun hsafebind
    cases hret.symm.trans hnull
  | @cached h _ hinfo => exact ⟨h, hinfo⟩
  | @binds q h hid hq => exact ⟨h, (hinfo_eq hid).trans hq⟩

/-- The first call. -/
theorem Safebinds.serves {es : List HandleEvent} (hs : s.Sound none)
    (hcall : s.Safebinds t id es (some c) s') (hinfo : s.hinfo id = some h)
    (hdelete : .deleteHandle h.m ∉ es) : s'.Serves id c h.m := by
  obtain ⟨hrun,hsafebind,hret⟩ := hcall
  obtain ⟨s₁,hstep,hrun⟩ := Option.bind_eq_some_iff.mp hrun
  have hs₁ := hs.step hstep
  have hcalled : s₁.Called t id h.m := by
    cases safebind_cases hstep with
    | null => exact .null (Function.update_self _ _ _)
    | @cached g c' hinfo' hdel hcl =>
      cases hinfo.symm.trans hinfo'
      obtain ⟨q,hid,-⟩ := hinfo_some hinfo
      refine .serves c' (Function.update_self _ _ _) ⟨hs.id_lt hid, ?_⟩
      intro k _
      exact ⟨h, hinfo, rfl, hcl, hdel⟩
    | @binds q g hid hq hdel =>
      have hgh : g = h := by
        rw [hinfo_eq hid, hq] at hinfo
        exact Option.some.inj hinfo
      subst hgh
      refine .binds s.nextRpcc { g with clMutex := some (t,id) } (Function.update_self _ _ _) ?_ rfl
        hdel
      refine (hinfo_eq (q := q) ?_).trans (Function.update_self _ _ _)
      exact hid
  cases hcalled.run hs₁ hrun hsafebind hdelete with
  | null ht => cases hret.symm.trans ht
  | binds _ _ ht => cases hret.symm.trans ht
  | serves c' ht hc =>
    cases hret.symm.trans ht
    exact hc

/-- A later call. -/
theorem Serves.safebinds {es : List HandleEvent} {r : Option ℕ} (hs : s.Sound none)
    (hc : s.Serves id c m) (hcall : s.Safebinds t id es r s') : r = some c := by
  obtain ⟨hrun,hsafebind,hret⟩ := hcall
  obtain ⟨s₁,hstep,hrun⟩ := Option.bind_eq_some_iff.mp hrun
  have hs₁ := hs.step hstep
  have hback : s₁.stage t = .returned (some c) := by
    cases safebind_cases hstep with
    | null hid hnull =>
      obtain ⟨h,hinfo,-,-,hdel⟩ := hc.client _ hid
      rw [hnull h hinfo] at hdel
      cases hdel
    | @cached g c' hinfo' _ hcl =>
      obtain ⟨q,hid,-⟩ := hinfo_some hinfo'
      obtain ⟨h,hinfo,-,hcl',-⟩ := hc.client _ hid
      cases hinfo.symm.trans hinfo'
      cases hcl.symm.trans hcl'
      exact Function.update_self _ _ _
    | @binds q g hid hq _ hcl =>
      obtain ⟨h,hinfo,-,hcl',-⟩ := hc.client _ hid
      rw [hinfo_eq hid, hq] at hinfo
      cases hinfo
      cases hcl.symm.trans hcl'
  have hstays := hs₁.returned_stays hback hrun hsafebind
  cases hret.symm.trans hstays
  rfl

/-- A client that `safebind` has returned is the client of the handle until the name is deleted,
where a deletion during this call counts. -/
theorem handle_cache {es : List HandleEvent} (hrun : run HandleMgr.step {} es = some s) :
    (∀ m q, s.hmap m = some q → ∃ h, s.heap q = some h ∧ h.m = m ∧ h.refcnt = s.live q ∧
      0 ≤ h.refcnt) ∧
    (∀ e s' q, s.step e = some s' → (s.heap q).isSome → s'.heap q = none → s'.live q = 0) ∧
    (∀ q r h g, s.heap q = some h → s.heap r = some g → h.m = g.m → q = r) ∧
    ∀ t id es₁ c s₁ es₂ s₂ u es₃ r s₃, s.Safebinds t id es₁ (some c) s₁ →
      run HandleMgr.step s₁ es₂ = some s₂ → s₂.Safebinds u id es₃ r s₃ →
      (∀ h, s.hinfo id = some h → .deleteHandle h.m ∉ es₁ ++ es₂) → r = some c := by
  have hs := Sound.init.of_run hrun
  refine ⟨?_, ?_, ?_, ?_⟩
  · intro m q hm
    obtain ⟨h,hq,hhm⟩ := hs.mapped m q hm
    have hcount := hs.counted q h hq
    rw [refs_none] at hcount
    exact ⟨h, hq, hhm, hcount, by omega⟩
  · intro e s' q hstep _ hfreed
    have hs' := hs.step hstep
    by_contra hlive
    have := hs'.pointed q (by rw [refs_none]; omega)
    rw [hfreed] at this
    cases this
  · intro q r h g hq hr heq
    have hboth := hs.heaped q h hq
    rw [heq, hs.heaped r g hr] at hboth
    exact (Option.some.inj hboth).symm
  · intro t id es₁ c s₁ es₂ s₂ u es₃ r s₃ hcall hrun₂ hcall' hdelete
    obtain ⟨h,hinfo⟩ := hcall.hinfo hs
    have hnot := hdelete h hinfo
    rw [List.mem_append, not_or] at hnot
    have hs₁ := hs.of_run hcall.1
    have hs₂ := hs₁.of_run hrun₂
    have hserves := (hcall.serves hs hinfo hnot.1).run hs₁ hrun₂ hnot.2
    exact hserves.safebinds hs₂ hcall'

end

theorem handle_cache_two : ∃ s, run step {} [.construct "a" 0, .construct "a" 1] = some s ∧
    s.live 0 = 2 ∧ (∃ h, s.heap 0 = some h ∧ h.m = "a" ∧ h.refcnt = 2) ∧
    ∃ s₁ s₂ s₃ r, s.Safebinds 1 0 [.bound 1 true] (some 0) s₁ ∧
      run step s₁ [.destruct 1] = some s₂ ∧ s₂.Safebinds 2 0 [] r s₃ ∧ r = some 0 := by
  let s := (run step {} [.construct "a" 0, .construct "a" 1]).get (by decide +kernel)
  let s₁ := (run step s [.safebind 1 0, .bound 1 true]).get (by decide +kernel)
  let s₂ := (run step s₁ [.destruct 1]).get (by decide +kernel)
  let s₃ := (run step s₂ [.safebind 2 0]).get (by decide +kernel)
  have hrun : run step {} [.construct "a" 0, .construct "a" 1] = some s :=
    (Option.some_get _).symm
  have hlive : s.live 0 = 2 := by decide +kernel
  have hfirst : s.Safebinds 1 0 [.bound 1 true] (some 0) s₁ :=
    ⟨(Option.some_get _).symm, by simp, by decide +kernel⟩
  have hrun₂ : run step s₁ [.destruct 1] = some s₂ := (Option.some_get _).symm
  have hlater : s₂.Safebinds 2 0 [] (some 0) s₃ :=
    ⟨(Option.some_get _).symm, by simp, by decide +kernel⟩
  obtain ⟨hcounted,-,-,hsame⟩ := handle_cache hrun
  obtain ⟨h,hq,hm,hcount,-⟩ := hcounted "a" 0 (by decide +kernel)
  refine ⟨s, hrun, hlive, ⟨h, hq, hm, by rw [hcount, hlive]; rfl⟩, s₁, s₂, s₃, some 0, hfirst,
    hrun₂, hlater, ?_⟩
  exact hsame 1 0 _ 0 s₁ _ s₂ 2 _ _ s₃ hfirst hrun₂ hlater (by simp)

/-- A name that is deleted while `safebind` binds to it: this call returns its client, and the next
one nothing, although nobody deletes the name any more. -/
theorem handle_cache_deleted_binding :
    ¬ ∀ es s, run step {} es = some s → ∀ t id es₁ c s₁ es₂ s₂ u es₃ r s₃,
      s.Safebinds t id es₁ (some c) s₁ → run step s₁ es₂ = some s₂ → s₂.Safebinds u id es₃ r s₃ →
      (∀ h, s₁.hinfo id = some h → .deleteHandle h.m ∉ es₂ ++ es₃) → r = some c := by
  intro hclaim
  let s := (run step {} [.construct "a" 0]).get (by decide +kernel)
  let s₁ := (run step s [.safebind 1 0, .deleteHandle "a", .bound 1 true]).get (by decide +kernel)
  let s₃ := (run step s₁ [.safebind 1 0]).get (by decide +kernel)
  have hrun : run step {} [.construct "a" 0] = some s := (Option.some_get _).symm
  have hfirst : s.Safebinds 1 0 [.deleteHandle "a", .bound 1 true] (some 0) s₁ :=
    ⟨(Option.some_get _).symm, by simp, by decide +kernel⟩
  have hlater : s₁.Safebinds 1 0 [] none s₃ :=
    ⟨(Option.some_get _).symm, by simp, by decide +kernel⟩
  have hsame := hclaim _ s hrun 1 0 _ 0 s₁ [] s₁ 1 [] none s₃ hfirst rfl hlater (by simp)
  cases hsame

end HandleMgr

end DisconnectedYfs.RPC
