import DisconnectedYfs.YFSExtentCache
import DisconnectedYfs.TraceSystem

/-! Histories of requests at the extent server: what is stored for an id, and the access time. -/
namespace DisconnectedYfs.YFS
open Std

inductive ExtentReq where
  | put (id : ℕ) (attr : Attr) (buf : Str)
  | get (id : ℕ)
  | getattr (id : ℕ)
  | remove (id : ℕ)
deriving DecidableEq, Repr

def ExtentReq.id : ExtentReq → ℕ
  | .put id _ _ | .get id | .getattr id | .remove id => id

/-- A request, with the time at which the server handles it. -/
structure Handled where
  now : UInt32
  req : ExtentReq
deriving DecidableEq, Repr

/-- `none` is a server that has aborted. -/
def Table.handle (t : Table) (r : Handled) : Option Table :=
  match r.req with
  | .put id attr buf => t.put id attr buf r.now
  | .get _ | .getattr _ => some t
  | .remove id => some (t.remove id)

abbrev Table.run : List Handled → Option Table := TraceSystem.run Table.handle ∅

/-- A `put`: the name that came with it, the contents and the time. -/
structure Stored where
  name : Str
  buf : Str
  time : UInt32
deriving DecidableEq, Repr

/-- One more request, after the puts `ps` on `id`, the last one first. -/
def putsAfter (id : ℕ) (ps : List Stored) (r : Handled) : List Stored :=
  match r.req with
  | .put i attr buf => if i = id then ⟨attr.name, buf, r.now⟩ :: ps else ps
  | .remove i => if i = id then [] else ps
  | .get _ | .getattr _ => ps

/-- The puts on `id` since it was last removed. -/
def putsSince (id : ℕ) (rs : List Handled) : List Stored := rs.foldl (putsAfter id) []

/-- What the server has for an id after these puts. -/
structure Table.Stores (t : Table) (id : ℕ) (ps : List Stored) : Prop where
  absent : ps = [] → t[id]? = none
  present : ∀ p qs, ps = p :: qs → ∃ f, t[id]? = some f ∧ f.buf = p.buf ∧
    f.a.size = byteSize p.buf ∧ f.a.name = p.name ∧ f.a.version = UInt32.ofNat ps.length

section
variable {t t' : Table} {r : Handled} {id j : ℕ} {ps : List Stored} {rs : List Handled}

/-- A request for one id leaves the others alone. -/
theorem handle_other (h : t.handle r = some t') (hj : r.req.id ≠ j) : t'[j]? = t[j]? := by
  rcases r with ⟨now,req⟩
  cases req with
  | put i attr buf => exact table_put_other h hj
  | get | getattr =>
    cases h
    rfl
  | remove i =>
    cases h
    exact (table_getElem_remove t i j).trans (if_neg hj)

theorem stores_put {attr : Attr} {buf : Str} {now : UInt32}
    (h : t.put id attr buf now = some t') (hs : t.Stores id ps) :
    t'.Stores id (⟨attr.name, buf, now⟩ :: ps) := by
  obtain ⟨f,hf,hbuf,hsize,hname,hversion⟩ := table_put_self h
  refine ⟨fun hnil => (by cases hnil), ?_⟩
  intro p qs hps
  cases hps
  refine ⟨f, hf, hbuf, hsize, hname, ?_⟩
  -- the version before was the number of puts before
  rcases ps with _ | ⟨p,qs⟩
  · obtain ⟨-,hone⟩ | ⟨g,hg,-⟩ := hversion
    · exact hone
    · rw [hs.absent rfl] at hg
      cases hg
  · obtain ⟨g,hg,-,-,-,hcount⟩ := hs.present p qs rfl
    obtain ⟨hnone,-⟩ | ⟨g',hg',-,hnext⟩ := hversion
    · rw [hg] at hnone
      cases hnone
    · rw [hg] at hg'
      cases hg'
      rw [hnext, hcount]
      exact (UInt32.ofNat_add _ 1).symm

theorem handle_stores (h : t.handle r = some t') (hs : t.Stores id ps) :
    t'.Stores id (putsAfter id ps r) := by
  have hother : r.req.id ≠ id → t'.Stores id ps := by
    intro hne
    have hsame := handle_other h hne
    refine ⟨fun hp => ?_, fun p qs hp => ?_⟩
    · rw [hsame]
      exact hs.absent hp
    · rw [hsame]
      exact hs.present p qs hp
  rcases r with ⟨now,req⟩
  unfold putsAfter
  cases req with
  | put i attr buf =>
    dsimp only
    split_ifs with hi
    · subst hi
      exact stores_put h hs
    · exact hother hi
  | get | getattr =>
    cases h
    exact hs
  | remove i =>
    dsimp only
    split_ifs with hi
    · subst hi
      cases h
      refine ⟨fun _ => ?_, fun p qs hp => by cases hp⟩
      rw [table_getElem_remove, if_pos rfl]
    · exact hother hi

theorem run_stores (hrun : Table.run rs = some t) (id : ℕ) : t.Stores id (putsSince id rs) := by
  refine TraceSystem.run_history (I := fun rs t => t.Stores id (putsSince id rs)) ?_ ?_ hrun
  · refine ⟨fun _ => ?_, fun p qs hp => by cases hp⟩
    simp
  · intro rs r t t' _ hs h
    have hlast : putsSince id (rs ++ [r]) = putsAfter id (putsSince id rs) r := by
      simp [putsSince]
    rw [hlast]
    exact handle_stores h hs

/-- The extent server keeps, for each id, the last put since the last removal, and its version
counts the puts since then. -/
theorem store_law (hrun : Table.run rs = some t) :
    (∀ id now, t.get id now = (putsSince id rs).head?.map Stored.buf) ∧
    (∀ id, (t.getattr id).map (fun a => (a.size, a.name, a.version)) =
      (putsSince id rs).head?.map (fun p =>
        (byteSize p.buf, p.name, UInt32.ofNat (putsSince id rs).length))) ∧
    (∀ id attr buf now f, t[id]? = some f → attr.version ≠ f.a.version →
      t.put id attr buf now = none) ∧
    ∀ r t' id, t.handle r = some t' → r.req.id ≠ id → t'[id]? = t[id]? := by
  refine ⟨?_, ?_, ?_, ?_⟩
  · intro id now
    have hs := run_stores hrun id
    rcases hps : putsSince id rs with _ | ⟨p,qs⟩
    · simp [Table.get, hs.absent hps]
    · obtain ⟨f,hf,hbuf,-⟩ := hs.present p qs hps
      simp [Table.get, hf, hbuf]
  · intro id
    have hs := run_stores hrun id
    rcases hps : putsSince id rs with _ | ⟨p,qs⟩
    · simp [Table.getattr, hs.absent hps]
    · obtain ⟨f,hf,-,hsize,hname,hversion⟩ := hs.present p qs hps
      rw [hps] at hversion
      simp [Table.getattr, hf, hsize, hname, hversion]
  · intro id attr buf now f hf hne
    exact table_put_eq_none.mpr ⟨f, hf, hne⟩
  · intro r t' id h hne
    exact handle_other h hne

end

/-- A file is put twice, removed and put again. -/
def remade : List Handled :=
  [⟨1, .put 5 { mtime := 0, ctime := 0, size := 0, version := 0, name := [97] } [1]⟩,
    ⟨2, .put 5 { mtime := 0, ctime := 0, size := 0, version := 1, name := [97] } [1, 2]⟩,
    ⟨3, .remove 5⟩, ⟨4, .get 5⟩,
    ⟨5, .put 5 { mtime := 0, ctime := 0, size := 0, version := 7, name := [98] } [3]⟩]

theorem store_law_remade : ∃ t, Table.run remade = some t ∧ t.get 5 6 = some [3] ∧
    (t.getattr 5).map (fun a => (a.size, a.name, a.version)) = some (1, [98], 1) := by
  obtain ⟨t,hrun⟩ := Option.isSome_iff_exists.mp
    (show (Table.run remade).isSome = true by decide +kernel)
  obtain ⟨hget,hattr,-⟩ := store_law hrun
  refine ⟨t, hrun, ?_, ?_⟩
  · rw [hget]
    rfl
  · rw [hattr]
    rfl

/-- The times of the puts on an id, the last one first, and that of the last `get` since the first
of them. -/
def accessAfter (id : ℕ) (x : List UInt32 × Option UInt32) (r : Handled) :
    List UInt32 × Option UInt32 :=
  match r.req with
  | .put i _ _ => if i = id then (r.now :: x.1, x.2) else x
  | .get i => if i = id ∧ x.1 ≠ [] then (x.1, some r.now) else x
  | .getattr _ => x
  | .remove i => if i = id then ([], none) else x

def accesses (id : ℕ) (rs : List Handled) : List UInt32 × Option UInt32 :=
  rs.foldl (accessAfter id) ([], none)

/-- What `getattr` returns is the time of the last `get`, or that of a put if there was none. -/
def Table.Dates (t : Table) (id : ℕ) (x : List UInt32 × Option UInt32) : Prop :=
  ∀ a, t.getattr id = some a →
    match x.2 with
    | some τ => a.atime = some τ
    | none => ∃ τ ∈ x.1, a.atime = some τ

/-- No extent has an access time. -/
def Table.Undated (t : Table) : Prop := ∀ (j : ℕ) (f : FInfo), t[j]? = some f → f.a.atime = none

section
variable {t t' : Table} {r : Handled} {rs : List Handled}

/-- The time goes into a copy of the record that `get` throws away, and `put` sets none. -/
theorem put_undated {id : ℕ} {attr : Attr} {buf : Str} {now : UInt32} (ht : t.Undated)
    (h : t.put id attr buf now = some t') : t'.Undated := by
  intro j f hf
  unfold Table.put at h
  split at h
  · split_ifs at h
    cases h
    rw [table_getElem_insert] at hf
    split_ifs at hf
    · cases hf
      rfl
    · exact ht j f hf
  · cases h
    rw [table_getElem_insert] at hf
    split_ifs at hf
    · cases hf
      rfl
    · exact ht j f hf

theorem handle_undated (ht : t.Undated) (h : t.handle r = some t') : t'.Undated := by
  rcases r with ⟨now,req⟩
  cases req with
  | put id attr buf => exact put_undated ht h
  | get | getattr =>
    cases h
    exact ht
  | remove id =>
    cases h
    intro j f hf
    rw [table_getElem_remove] at hf
    split_ifs at hf
    exact ht j f hf

theorem run_undated (hrun : Table.run rs = some t) : t.Undated := by
  refine TraceSystem.run_invariant (I := Table.Undated) ?_ ?_ hrun
  · intro t r t' ht h
    exact handle_undated ht h
  · intro j f hf
    simp at hf

/-- Nobody ever sees an access time: the server dates an id only while there is no such extent, and
a put that is flushed and loaded again has lost what time there was. -/
theorem access_time_iff {rs : List Handled} {t : Table} (id : ℕ) (hrun : Table.run rs = some t) :
    (t.Dates id (accesses id rs) ↔ putsSince id rs = []) ∧
    ∀ (m m' : Cache) (t t' : Table) eid buf τ τ' τ'',
      (m.put eid buf τ).flush t eid τ' = some (m', t') →
      ∃ m'' e, m'.getHelper t' eid τ'' = some (some m'') ∧ m''[eid]? = some e ∧
        e.attr.atime = none := by
  refine ⟨?_, ?_⟩
  · have hs := run_stores hrun id
    constructor
    · intro hd
      by_contra hne
      obtain ⟨p,qs,hps⟩ := List.exists_cons_of_ne_nil hne
      obtain ⟨f,hf,-⟩ := hs.present p qs hps
      have hnone := run_undated hrun id f hf
      have hdate := hd f.a (by simp [Table.getattr, hf])
      split at hdate
      · rw [hnone] at hdate
        cases hdate
      · obtain ⟨τ,-,hτ⟩ := hdate
        rw [hnone] at hτ
        cases hτ
    · intro hps a ha
      simp [Table.getattr, hs.absent hps] at ha
  · intro m m' t t' eid buf τ τ' τ'' h
    obtain ⟨e,he,hdirty,-⟩ := cache_put_self m eid buf τ
    obtain ⟨hn,-⟩ | ⟨e',he',-,rfl,hput⟩ | ⟨e',he',hclean,-⟩ := cache_flush_cases h
    · rw [he] at hn
      cases hn
    · -- the extent at the server is new, with no access time
      have hfresh : ∃ f, t'[eid]? = some f ∧ f.a.atime = none := by
        unfold Table.put at hput
        split at hput
        · split_ifs at hput
          cases hput
          exact ⟨_, (table_getElem_insert t eid eid _).trans (if_pos rfl), rfl⟩
        · cases hput
          exact ⟨_, (table_getElem_insert t eid eid _).trans (if_pos rfl), rfl⟩
      obtain ⟨f,hf,hnone⟩ := hfresh
      refine ⟨Cache.load (ExtTreeMap.erase (m.put eid buf τ) eid) eid f.buf f.a,
        ⟨false, f.buf, f.a⟩, ?_, ?_, hnone⟩
      · simp only [Cache.getHelper, Table.get, Table.getattr, hf, Option.map_some]
      · simp [Cache.load]
    · rw [he] at he'
      cases he'
      rw [hdirty] at hclean
      cases hclean

end

/-- A file is put at 1 and read at 2. -/
def readOnce : List Handled :=
  [⟨1, .put 5 { mtime := 0, ctime := 0, size := 0, version := 0, name := [97] } [1]⟩, ⟨2, .get 5⟩]

/-- Another file is not dated either: there is none. -/
theorem access_time_of_nothing : ∃ t m' t', Table.run readOnce = some t ∧
    t.Dates 6 (accesses 6 readOnce) ∧ (Cache.put ∅ 5 [1] 1).flush ∅ 5 2 = some (m', t') ∧
      ∃ m'' e, m'.getHelper t' 5 3 = some (some m'') ∧ m''[5]? = some e ∧ e.attr.atime = none := by
  obtain ⟨t,hrun⟩ : ∃ t, Table.run readOnce = some t := ⟨_, rfl⟩
  obtain ⟨p,hp⟩ : ∃ p, (Cache.put ∅ 5 [1] 1).flush ∅ 5 2 = some p := ⟨_, rfl⟩
  obtain ⟨hserver,hclient⟩ := access_time_iff 6 hrun
  exact ⟨t, p.1, p.2, hrun, hserver.mpr rfl, hp,
    hclient ∅ p.1 ∅ p.2 5 [1] 1 2 3 hp⟩

theorem access_time_lost : ∃ t a, Table.run readOnce = some t ∧ t.getattr 5 = some a ∧
    a.atime = none ∧ ¬ t.Dates 5 (accesses 5 readOnce) := by
  obtain ⟨t,hrun,a,ha,hnone⟩ : ∃ t, Table.run readOnce = some t ∧
      ∃ a, t.getattr 5 = some a ∧ a.atime = none := ⟨_, rfl, _, rfl, rfl⟩
  refine ⟨t, a, hrun, ha, hnone, ?_⟩
  intro hd
  have hdate : a.atime = some 2 := hd a ha
  rw [hnone] at hdate
  cases hdate

end DisconnectedYfs.YFS
