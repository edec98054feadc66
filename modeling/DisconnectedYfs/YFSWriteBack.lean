import DisconnectedYfs.YFSExtentCache
import DisconnectedYfs.TraceSystem

/-! One client with the lock on one extent. Its cache in front of the extent server is compared
with a plain map in which every update takes effect at once and a flush does nothing. -/
namespace DisconnectedYfs.YFS
open Std TraceSystem

/-- The calls on `eid`, each with the time its clock reads. -/
inductive ExtentOp where
  | get (now : UInt32)
  | getattr (now : UInt32)
  | put (buf : Str) (now : UInt32)
  | rename (name : Str) (now : UInt32)
  | remove
  | flush (now : UInt32)
deriving DecidableEq, Repr

/-- What a caller sees of a result: `NOENT`, the buffer, or the size and name. -/
inductive ExtentOut where
  | noent
  | ok
  | buf (b : Str)
  | attr (size : UInt32) (name : Str)
deriving DecidableEq, Repr

structure Store where
  cache : Cache
  table : Table

/-- Run `k` on the cached copy of `eid`, loading it first if it is not there. -/
def Store.withCopy (s : Store) (eid : ℕ) (now : UInt32) (k : Cache → Cache × ExtentOut) :
    Option (Store × ExtentOut) :=
  match s.cache[eid]? with
  | some _ => some (⟨(k s.cache).1, s.table⟩, (k s.cache).2)
  | none =>
    match s.cache.getHelper s.table eid now with
    | none => none
    | some none => some (s, .noent)
    | some (some m) => some (⟨(k m).1, s.table⟩, (k m).2)

-- get, getattr, rename, put, remove and flush of extent_client_cache, on one id
def Store.exec (s : Store) (eid : ℕ) : ExtentOp → Option (Store × ExtentOut)
  | .get now => s.withCopy eid now (fun m =>
      (m.touch eid now, ((m[eid]?).map (fun e => ExtentOut.buf e.extent)).getD .noent))
  | .getattr now => s.withCopy eid now (fun m =>
      (m, ((m[eid]?).map (fun e => ExtentOut.attr e.attr.size e.attr.name)).getD .noent))
  | .rename name now => s.withCopy eid now (fun m => (m.setName eid name, .ok))
  | .put buf now => some (⟨s.cache.put eid buf now, s.table⟩, .ok)
  | .remove => (s.cache.remove eid).map (fun m => (⟨m, s.table⟩, .ok))
  | .flush now => (s.cache.flush s.table eid now).map (fun p => (⟨p.1, p.2⟩, .ok))

/-- An extent of the plain map. -/
structure PlainExtent where
  buf : Str
  size : UInt32
  name : Str
deriving DecidableEq, Repr

def plainExec (p : Option PlainExtent) : ExtentOp → Option PlainExtent × ExtentOut
  | .get _ => (p, (p.map (fun x => ExtentOut.buf x.buf)).getD .noent)
  | .getattr _ => (p, (p.map (fun x => ExtentOut.attr x.size x.name)).getD .noent)
  | .put buf _ => (some ⟨buf, byteSize buf, (p.map PlainExtent.name).getD []⟩, .ok)
  | .rename name _ => (p.map (fun x => { x with name := name }), if p.isSome then .ok else .noent)
  | .remove => (none, .ok)
  | .flush _ => (p, .ok)

def outputs (eid : ℕ) : Store → List ExtentOp → Option (List ExtentOut)
  | _, [] => some []
  | s, op :: ops => (s.exec eid op).bind (fun r => (outputs eid r.1 ops).map (r.2 :: ·))

def plainOutputs : Option PlainExtent → List ExtentOp → List ExtentOut
  | _, [] => []
  | p, op :: ops => (plainExec p op).2 :: plainOutputs (plainExec p op).1 ops

/-- The extent as the plain map starts with it: the server's. -/
def plainOf (t : Table) (eid : ℕ) : Option PlainExtent :=
  (t[eid]?).map (fun f => ⟨f.buf, f.a.size, f.a.name⟩)

/-- Two bits of history: `eid` was removed and neither put nor flushed since, and it was read
since the last flush. -/
structure ExtentHistory where
  removed : Bool := false
  accessed : Bool := false

def ExtentHistory.next (h : ExtentHistory) : ExtentOp → ExtentHistory
  | .get _ => { h with accessed := true }
  | .getattr _ => { h with accessed := true }
  | .put _ _ => { h with removed := false }
  | .rename _ _ => h
  | .remove => { h with removed := true }
  | .flush _ => {}

def extentStep (eid : ℕ) (x : Store × ExtentHistory) (op : ExtentOp) :
    Option (Store × ExtentHistory) :=
  (x.1.exec eid op).map (fun r => (r.1, x.2.next op))

/-- What the callers keep to: remove only a cached extent, read before the first put. -/
def AsCalled (eid : ℕ) (x : Store × ExtentHistory) : ExtentOp → Prop
  | .remove => (x.1.cache[eid]?).isSome
  | .put _ _ => x.2.accessed = true
  | _ => True

/-- Where the cache can tell its cases apart. After a removal only a flush may follow while the
server still has the extent; a flush needs a dirty copy, or a clean one with the server's name, or
an extent that was removed or that the server never had. -/
def Distinguished (eid : ℕ) (x : Store × ExtentHistory) : ExtentOp → Prop
  | .remove => True
  | .flush _ =>
    match x.1.cache[eid]? with
    | some e => e.dirty = true ∨ (x.1.table[eid]?).map (·.a.name) = some e.attr.name
    | none => x.2.removed = true ∨ x.1.table[eid]? = none
  | _ => x.2.removed = true → x.1.table[eid]? = none

/-- The refinement relation between cache and server on one side and the plain extent. -/
structure Reflects (eid : ℕ) (x : Store × ExtentHistory) (p : Option PlainExtent) : Prop where
  copy : ∀ e, x.1.cache[eid]? = some e → p = some ⟨e.extent, e.attr.size, e.attr.name⟩
  version : ∀ e f, x.1.cache[eid]? = some e → x.1.table[eid]? = some f →
    e.attr.version = f.a.version
  sized : ∀ e, x.1.cache[eid]? = some e → e.dirty = true → e.attr.size = byteSize e.extent
  clean : ∀ e, x.1.cache[eid]? = some e → e.dirty = false →
    ∃ f, x.1.table[eid]? = some f ∧ f.buf = e.extent ∧ f.a.size = e.attr.size
  absent : x.1.cache[eid]? = none → x.2.removed = false → p = plainOf x.1.table eid
  removed : x.2.removed = true → x.1.cache[eid]? = none ∧ p = none
  read : x.1.cache[eid]? = none → x.2.removed = false → x.2.accessed = true →
    x.1.table[eid]? = none

section
variable {eid : ℕ} {x : Store × ExtentHistory} {p : Option PlainExtent}

theorem Reflects.not_removed (h : Reflects eid x p) {e : Entry}
    (he : x.1.cache[eid]? = some e) : x.2.removed = false := by
  by_contra hr
  have hn := (h.removed (by simpa using hr)).1
  simp [hn] at he

/-- The three reading calls: either there is nothing to read on either side, or they continue on a
copy that reflects the plain extent. -/
theorem Reflects.withCopy (h : Reflects eid x p) (now : UInt32) (k : Cache → Cache × ExtentOut)
    (hd : x.2.removed = true → x.1.table[eid]? = none) :
    (p = none ∧ x.1.cache[eid]? = none ∧ x.1.table[eid]? = none ∧
      x.1.withCopy eid now k = some (x.1, .noent)) ∨
    ∃ m e, x.1.withCopy eid now k = some (⟨(k m).1, x.1.table⟩, (k m).2) ∧
      m[eid]? = some e ∧ Reflects eid (⟨m, x.1.table⟩, x.2) p := by
  cases hc : x.1.cache[eid]? with
  | some e =>
    refine Or.inr ⟨x.1.cache, e, ?_, hc, h⟩
    simp only [Store.withCopy, hc]
  | none =>
    cases ht : x.1.table[eid]? with
    | none =>
      refine Or.inl ⟨?_, rfl, rfl, ?_⟩
      · by_cases hr : x.2.removed = true
        · exact (h.removed hr).2
        · rw [h.absent hc (by simpa using hr), plainOf, ht, Option.map_none]
      · simp [Store.withCopy, hc, Cache.getHelper, Table.get, ht]
    | some f =>
      have hr : x.2.removed = false := by
        by_contra hr
        simp [hd (by simpa using hr)] at ht
      have hp := h.absent hc hr
      rw [plainOf, ht, Option.map_some] at hp
      have hget : (x.1.cache.load eid f.buf f.a)[eid]? =
          some { dirty := false, extent := f.buf, attr := f.a } := by
        simp [Cache.load]
      refine Or.inr ⟨x.1.cache.load eid f.buf f.a, _, ?_, hget, ?_⟩
      · simp [Store.withCopy, hc, Cache.getHelper, Table.get, Table.getattr, ht]
      · refine ⟨?_, ?_, ?_, ?_, ?_, ?_, ?_⟩ <;> simp only [hget, ht]
        · rintro e ⟨⟩
          exact hp
        · rintro e g ⟨⟩ ⟨⟩
          rfl
        · rintro e ⟨⟩ hdirty
          simp at hdirty
        · rintro e ⟨⟩ -
          exact ⟨f, rfl, rfl, rfl⟩
        · simp
        · simp [hr]
        · simp

/-- Updating the cached copy in place, with the history unchanged up to a read. -/
theorem Reflects.update (h : Reflects eid x p) {e e' : Entry} {m : Cache} {q : Option PlainExtent}
    {b : Bool} (he : x.1.cache[eid]? = some e) (hc : m[eid]? = some e')
    (hq : q = some ⟨e'.extent, e'.attr.size, e'.attr.name⟩)
    (hv : e'.attr.version = e.attr.version) (hd : e'.dirty = e.dirty)
    (hext : e'.extent = e.extent) (hsize : e'.attr.size = e.attr.size) :
    Reflects eid (⟨m, x.1.table⟩, { x.2 with accessed := b }) q := by
  have hr := h.not_removed he
  refine ⟨?_, ?_, ?_, ?_, ?_, ?_, ?_⟩ <;> simp only [hc]
  · rintro e₁ ⟨⟩
    exact hq
  · rintro e₁ f ⟨⟩ hf
    rw [hv]
    exact h.version e f he hf
  · rintro e₁ ⟨⟩ hdirty
    rw [hext, hsize]
    exact h.sized e he (hd ▸ hdirty)
  · rintro e₁ ⟨⟩ hdirty
    rw [hext, hsize]
    exact h.clean e he (hd ▸ hdirty)
  · simp
  · simp [hr]
  · simp

/-- The simulation step: under the callers' discipline and the side condition a call succeeds,
returns what the plain map returns, and the relation holds again. -/
def Answers (eid : ℕ) (x : Store × ExtentHistory) (p : Option PlainExtent) (op : ExtentOp) : Prop :=
  ∃ s', x.1.exec eid op = some (s', (plainExec p op).2) ∧
    Reflects eid (s', x.2.next op) (plainExec p op).1

theorem answers_get (h : Reflects eid x p) (now : UInt32)
    (hd : x.2.removed = true → x.1.table[eid]? = none) : Answers eid x p (.get now) := by
  rcases h.withCopy now (fun m =>
    (m.touch eid now, ((m[eid]?).map (fun e => ExtentOut.buf e.extent)).getD .noent)) hd with
    ⟨rfl,hc,ht,hex⟩ | ⟨m,e,hex,hc,hR⟩
  · refine ⟨x.1, hex, ?_⟩
    exact ⟨h.copy, h.version, h.sized, h.clean, h.absent, h.removed, fun _ _ _ => ht⟩
  · have hp := hR.copy e hc
    have hc' := cache_touch_getElem m eid eid now
    rw [hc, Option.map_some, if_pos rfl] at hc'
    refine ⟨_, ?_, hR.update hc hc' ?_ ?_ ?_ ?_ ?_⟩
    · rw [Store.exec, hex]
      simp [plainExec, hc, hp]
    all_goals simp [plainExec, hp]

theorem answers_getattr (h : Reflects eid x p) (now : UInt32)
    (hd : x.2.removed = true → x.1.table[eid]? = none) : Answers eid x p (.getattr now) := by
  rcases h.withCopy now (fun m =>
    (m, ((m[eid]?).map (fun e => ExtentOut.attr e.attr.size e.attr.name)).getD .noent)) hd with
    ⟨rfl,hc,ht,hex⟩ | ⟨m,e,hex,hc,hR⟩
  · refine ⟨x.1, hex, ?_⟩
    exact ⟨h.copy, h.version, h.sized, h.clean, h.absent, h.removed, fun _ _ _ => ht⟩
  · have hp := hR.copy e hc
    refine ⟨_, ?_, hR.update hc hc ?_ ?_ ?_ ?_ ?_⟩
    · rw [Store.exec, hex]
      simp [plainExec, hc, hp]
    all_goals simp [plainExec, hp]

theorem answers_rename (h : Reflects eid x p) (name : Str) (now : UInt32)
    (hd : x.2.removed = true → x.1.table[eid]? = none) :
    Answers eid x p (.rename name now) := by
  rcases h.withCopy now (fun m => (m.setName eid name, .ok)) hd with
    ⟨rfl,hc,ht,hex⟩ | ⟨m,e,hex,hc,hR⟩
  · exact ⟨x.1, hex, h⟩
  · have hp := hR.copy e hc
    have hc' := cache_setName_getElem m eid eid name
    rw [hc, Option.map_some, if_pos rfl] at hc'
    refine ⟨_, ?_, hR.update (b := x.2.accessed) hc hc' ?_ ?_ ?_ ?_ ?_⟩
    · rw [Store.exec, hex]
      simp [plainExec, hp]
    all_goals simp [plainExec, hp]

theorem answers_put (h : Reflects eid x p) (buf : Str) (now : UInt32)
    (hacc : x.2.accessed = true) (hd : x.2.removed = true → x.1.table[eid]? = none) :
    Answers eid x p (.put buf now) := by
  obtain ⟨e,he,hdirty,hext,hsize,hver,hname⟩ := cache_put_self x.1.cache eid buf now
  refine ⟨_, rfl, ?_⟩
  refine ⟨?_, ?_, ?_, ?_, ?_, ?_, ?_⟩ <;>
    simp only [he, ExtentHistory.next, reduceCtorEq, false_implies, Bool.false_eq_true,
      Option.some.injEq, plainExec]
  · rintro e₁ rfl
    rw [hext, hsize, hname]
    cases hc : x.1.cache[eid]? with
    | some e₀ => simp [h.copy e₀ hc]
    | none =>
      -- a fresh entry: neither side has a name to keep
      by_cases hr : x.2.removed = true
      · simp [(h.removed hr).2]
      · have hr' : x.2.removed = false := by simpa using hr
        simp [h.absent hc hr', plainOf, h.read hc hr' hacc]
  · rintro e₁ f rfl hf
    cases hc : x.1.cache[eid]? with
    | some e₀ =>
      rw [hver, hc]
      exact h.version e₀ f hc hf
    | none =>
      by_cases hr : x.2.removed = true
      · simp [hd hr] at hf
      · simp [h.read hc (by simpa using hr) hacc] at hf
  · rintro e₁ rfl -
    rw [hext, hsize]
  · rintro e₁ rfl hdirty'
    simp [hdirty] at hdirty'

theorem answers_remove (p : Option PlainExtent) (hc : (x.1.cache[eid]?).isSome) :
    Answers eid x p .remove := by
  obtain ⟨e,he⟩ := Option.isSome_iff_exists.mp hc
  refine ⟨⟨x.1.cache.erase eid, x.1.table⟩, ?_, ?_⟩
  · simp [Store.exec, Cache.remove, he, plainExec]
  · refine ⟨?_, ?_, ?_, ?_, ?_, ?_, ?_⟩ <;> simp [ExtentHistory.next, plainExec]

/-- A flush moves a dirty copy to the server, forgets a clean one, and turns a removal into one at
the server; the plain extent is the same before and after. -/
theorem answers_flush (h : Reflects eid x p) (now : UInt32)
    (hd : Distinguished eid x (.flush now)) : Answers eid x p (.flush now) := by
  unfold Distinguished at hd
  cases hc : x.1.cache[eid]? with
  | none =>
    simp only [hc] at hd
    refine ⟨⟨x.1.cache, x.1.table.remove eid⟩, by simp [Store.exec, Cache.flush, hc, plainExec], ?_⟩
    refine ⟨?_, ?_, ?_, ?_, ?_, ?_, ?_⟩ <;>
      simp only [hc, ExtentHistory.next, plainExec, reduceCtorEq, false_implies, implies_true,
        table_getElem_remove, Bool.false_eq_true, forall_const, if_true, plainOf, Option.map_none]
    by_cases hr : x.2.removed = true
    · exact (h.removed hr).2
    · rcases hd with hd | hd
      · exact absurd hd hr
      · rw [h.absent hc (by simpa using hr), plainOf, hd, Option.map_none]
  | some e =>
    simp only [hc] at hd
    by_cases hdirty : e.dirty = true
    · cases hput : x.1.table.put eid e.attr e.extent now with
      | none =>
        obtain ⟨g,hg,hne⟩ := table_put_eq_none.mp hput
        exact absurd (h.version e g hc hg) hne
      | some t' =>
        obtain ⟨f,hf,hbuf,hsize,hname,-⟩ := table_put_self hput
        refine ⟨⟨x.1.cache.erase eid, t'⟩, ?_, ?_⟩
        · simp [Store.exec, Cache.flush, hc, hdirty, hput, plainExec]
        · refine ⟨?_, ?_, ?_, ?_, ?_, ?_, ?_⟩ <;>
            simp [ExtentHistory.next, plainExec, plainOf, hf, h.copy e hc, hbuf, hsize, hname,
              h.sized e hc hdirty]
    · have hclean : e.dirty = false := by simpa using hdirty
      obtain ⟨f,hf,hbuf,hsize⟩ := h.clean e hc hclean
      have hname : f.a.name = e.attr.name := by
        rcases hd with hd | hd
        · exact absurd hd hdirty
        · simpa [hf] using hd
      refine ⟨⟨x.1.cache.erase eid, x.1.table⟩, ?_, ?_⟩
      · simp [Store.exec, Cache.flush, hc, hclean, plainExec]
      · refine ⟨?_, ?_, ?_, ?_, ?_, ?_, ?_⟩ <;>
          simp [ExtentHistory.next, plainExec, plainOf, hf, h.copy e hc, hbuf, hsize, hname]

theorem answers_step (h : Reflects eid x p) {op : ExtentOp} (hc : AsCalled eid x op)
    (hd : Distinguished eid x op) : Answers eid x p op := by
  cases op with
  | get now => exact answers_get h now hd
  | getattr now => exact answers_getattr h now hd
  | put buf now => exact answers_put h buf now hc hd
  | rename name now => exact answers_rename h name now hd
  | remove => exact answers_remove p hc
  | flush now => exact answers_flush h now hd

/-- The calls of a client that the cache can tell apart. -/
def CalledAndDistinguished (eid : ℕ) (x : Store × ExtentHistory) (op : ExtentOp) : Prop :=
  AsCalled eid x op ∧ Distinguished eid x op

theorem outputs_eq_plainOutputs (h : Reflects eid x p) {ops : List ExtentOp}
    (hm : Meets (extentStep eid) (CalledAndDistinguished eid) x ops) :
    outputs eid x.1 ops = some (plainOutputs p ops) := by
  induction ops generalizing x p with
  | nil => rfl
  | cons op ops ih =>
    obtain ⟨⟨hc,hd⟩,hrest⟩ := hm
    obtain ⟨s',hexec,hR⟩ := answers_step h hc hd
    have hnext := ih hR (hrest (s', x.2.next op) (by simp [extentStep, hexec]))
    simp only [outputs, hexec, Option.bind_some, hnext, Option.map_some, plainOutputs]

/-- A client that starts without a copy of `eid` sees, in every sequence of calls whose steps all
meet the condition, exactly the plain map. -/
theorem write_back_refines_plain_store (eid : ℕ) (m : Cache) (t : Table) (hc : m[eid]? = none)
    (ops : List ExtentOp)
    (hm : Meets (extentStep eid) (CalledAndDistinguished eid) (⟨m, t⟩, {}) ops) :
    outputs eid ⟨m, t⟩ ops = some (plainOutputs (plainOf t eid) ops) := by
  have h : Reflects eid (⟨m, t⟩, {}) (plainOf t eid) := by
    refine ⟨?_, ?_, ?_, ?_, ?_, ?_, ?_⟩ <;> simp [hc]
  exact outputs_eq_plainOutputs h hm

end

instance (eid : ℕ) (x : Store × ExtentHistory) (op : ExtentOp) : Decidable (AsCalled eid x op) :=
  match op with
  | .remove => inferInstanceAs (Decidable ((x.1.cache[eid]?).isSome = true))
  | .put _ _ => inferInstanceAs (Decidable (x.2.accessed = true))
  | .get _ | .getattr _ | .rename _ _ | .flush _ => inferInstanceAs (Decidable True)

instance (eid : ℕ) (x : Store × ExtentHistory) (op : ExtentOp) :
    Decidable (Distinguished eid x op) :=
  match op with
  | .remove => inferInstanceAs (Decidable True)
  | .get _ | .getattr _ | .put _ _ | .rename _ _ =>
    inferInstanceAs (Decidable (x.2.removed = true → x.1.table[eid]? = none))
  | .flush now =>
    match h : x.1.cache[eid]? with
    | some e => decidable_of_iff
        (e.dirty = true ∨ (x.1.table[eid]?).map (·.a.name) = some e.attr.name)
        (by simp only [Distinguished, h])
    | none => decidable_of_iff (x.2.removed = true ∨ x.1.table[eid]? = none)
        (by simp only [Distinguished, h])

instance (eid : ℕ) (x : Store × ExtentHistory) (op : ExtentOp) :
    Decidable (CalledAndDistinguished eid x op) :=
  inferInstanceAs (Decidable (_ ∧ _))

/-- A server that has extent 5, with contents `[1]` and name `[97]`, at version 3. -/
def fiveAtServer : Table :=
  (∅ : Table).insert 5
    { buf := [1], a := { mtime := 0, ctime := 0, size := 1, version := 3, name := [97] } }

theorem write_back_refines_read_write_flush :
    outputs 5 ⟨∅, fiveAtServer⟩ [.get 1, .put [2, 3] 2, .rename [98] 2, .flush 3, .getattr 4] =
      some (plainOutputs (plainOf fiveAtServer 5)
        [.get 1, .put [2, 3] 2, .rename [98] 2, .flush 3, .getattr 4]) :=
  write_back_refines_plain_store 5 ∅ fiveAtServer (by decide +kernel) _ (by decide +kernel)

/-- A removed extent is read again from the server, and a flush drops a new name. -/
theorem removal_and_rename_not_reflected :
    (Meets (extentStep 5) (AsCalled 5) (⟨∅, fiveAtServer⟩, {}) [.get 1, .remove, .get 2] ∧
      outputs 5 ⟨∅, fiveAtServer⟩ [.get 1, .remove, .get 2] ≠
        some (plainOutputs (plainOf fiveAtServer 5) [.get 1, .remove, .get 2])) ∧
    (Meets (extentStep 5) (AsCalled 5) (⟨∅, fiveAtServer⟩, {})
        [.rename [98] 1, .flush 2, .getattr 3] ∧
      outputs 5 ⟨∅, fiveAtServer⟩ [.rename [98] 1, .flush 2, .getattr 3] ≠
        some (plainOutputs (plainOf fiveAtServer 5) [.rename [98] 1, .flush 2, .getattr 3])) := by
  decide +kernel

end DisconnectedYfs.YFS
