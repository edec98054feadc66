import DisconnectedYfs.YFSExtentServer

/-! The write-back extent cache of one client (`extent_client_cache.cc`), as functions of its map
`local_extent_` and of what the extent server answers. -/
namespace DisconnectedYfs.YFS
open Std

/-- `extent_entry`. -/
structure Entry where
  dirty : Bool
  extent : Str
  attr : Attr
deriving DecidableEq, Repr

/-- `extent_client_cache::local_extent_`. -/
abbrev Cache := ExtTreeMap ℕ Entry

@[simp] theorem cache_getElem_insert (m : Cache) (eid j : ℕ) (e : Entry) :
    (m.insert eid e)[j]? = if eid = j then some e else m[j]? := by
  simp only [ExtTreeMap.getElem?_insert, LawfulEqCmp.compare_eq_iff_eq]

@[simp] theorem cache_getElem_erase (m : Cache) (eid j : ℕ) :
    (m.erase eid)[j]? = if eid = j then none else m[j]? := by
  simp only [ExtTreeMap.getElem?_erase, LawfulEqCmp.compare_eq_iff_eq]

/-- The end of `get_helper`: both RPCs succeeded and the entry becomes a clean copy. -/
def Cache.load (m : Cache) (eid : ℕ) (buf : Str) (a : Attr) : Cache :=
  m.insert eid { dirty := false, extent := buf, attr := a }

/-- `extent_client_cache::get_helper` when nothing happens between its two RPCs. The outer `none`
is a failed `VERIFY`, the inner `none` is `NOENT`. -/
def Cache.getHelper (m : Cache) (t : Table) (eid : ℕ) (now : UInt32) : Option (Option Cache) :=
  match t.get eid now with
  | none => some none
  | some buf => (t.getattr eid).map (fun a => some (m.load eid buf a))

/-- What a successful `get` does to the cached entry. -/
def Cache.touch (m : Cache) (eid : ℕ) (now : UInt32) : Cache :=
  match m[eid]? with
  | some e => m.insert eid { e with attr := { e.attr with atime := some now } }
  | none => m

/-- What a successful `rename` does to the cached entry; the entry is not marked dirty. -/
def Cache.setName (m : Cache) (eid : ℕ) (name : Str) : Cache :=
  match m[eid]? with
  | some e => m.insert eid { e with attr := { e.attr with name := name } }
  | none => m

/-- `extent_client_cache::put`. -/
def Cache.put (m : Cache) (eid : ℕ) (buf : Str) (now : UInt32) : Cache :=
  let ee (version : UInt32) (name : Str) : Entry :=
    { dirty := true, extent := buf,
      attr := { ctime := now, mtime := now, size := byteSize buf, version := version,
                name := name } }
  match m[eid]? with
  | none => m.insert eid (ee 0 [])
  | some e => m.insert eid (ee e.attr.version e.attr.name)

/-- `extent_client_cache::remove`; `none` is the failed `VERIFY(erase(eid) == 1)`. -/
def Cache.remove (m : Cache) (eid : ℕ) : Option Cache :=
  match m[eid]? with
  | some _ => some (m.erase eid)
  | none => none

/-- `extent_client_cache::flush`: an id without an entry is taken for a deleted one. `none` is the
extent server's failed version check. -/
def Cache.flush (m : Cache) (t : Table) (eid : ℕ) (now : UInt32) : Option (Cache × Table) :=
  match m[eid]? with
  | none => some (m, t.remove eid)
  | some e =>
    if e.dirty then (t.put eid e.attr e.extent now).map (fun t' => (m.erase eid, t'))
    else some (m.erase eid, t)

/-- `extent_client_cache::compare_version` on a cached entry; `none` is a failed `VERIFY`. -/
def compareVersion (e : Entry) (t : Table) (eid : ℕ) : Option Bool :=
  match t.getattr eid with
  | none => some (e.attr.version = 0)
  | some a => if e.attr.version ≤ a.version then some (a.version = e.attr.version) else none

theorem cache_put_self (m : Cache) (eid : ℕ) (buf : Str) (now : UInt32) :
    ∃ e, (m.put eid buf now)[eid]? = some e ∧ e.dirty = true ∧ e.extent = buf ∧
      e.attr.size = byteSize buf ∧ e.attr.version = ((m[eid]?).map (·.attr.version)).getD 0 ∧
      e.attr.name = ((m[eid]?).map (·.attr.name)).getD [] := by
  unfold Cache.put
  split <;> rename_i h <;> simp [h]

theorem cache_put_other (m : Cache) {eid j : ℕ} (buf : Str) (now : UInt32) (hj : eid ≠ j) :
    (m.put eid buf now)[j]? = m[j]? := by
  unfold Cache.put
  split <;> simp [hj]

theorem cache_touch_getElem (m : Cache) (eid j : ℕ) (now : UInt32) :
    (m.touch eid now)[j]? =
      (m[j]?).map (fun e => if eid = j then { e with attr := { e.attr with atime := some now } }
        else e) := by
  unfold Cache.touch
  by_cases hj : eid = j
  · subst hj
    split <;> rename_i h <;> simp [h]
  · split <;> simp [hj]

theorem cache_setName_getElem (m : Cache) (eid j : ℕ) (name : Str) :
    (m.setName eid name)[j]? =
      (m[j]?).map (fun e => if eid = j then { e with attr := { e.attr with name := name } }
        else e) := by
  unfold Cache.setName
  by_cases hj : eid = j
  · subst hj
    split <;> rename_i h <;> simp [h]
  · split <;> simp [hj]

/-- Flushing an id with no cached copy erases the server's extent; otherwise the copy leaves the
cache, and a dirty one goes through the version check. -/
theorem cache_flush_cases {m m' : Cache} {t t' : Table} {eid : ℕ} {now : UInt32}
    (h : m.flush t eid now = some (m', t')) :
    (m[eid]? = none ∧ m' = m ∧ t' = t.remove eid) ∨
    (∃ e, m[eid]? = some e ∧ e.dirty = true ∧ m' = m.erase eid ∧
      t.put eid e.attr e.extent now = some t') ∨
    (∃ e, m[eid]? = some e ∧ e.dirty = false ∧ m' = m.erase eid ∧ t' = t) := by
  unfold Cache.flush at h
  split at h
  · rename_i hc
    cases h
    exact Or.inl ⟨hc, rfl, rfl⟩
  · rename_i e hc
    split_ifs at h with hd
    · obtain ⟨u,hu,he⟩ := Option.map_eq_some_iff.mp h
      cases he
      exact Or.inr (Or.inl ⟨e, hc, hd, rfl, hu⟩)
    · cases h
      exact Or.inr (Or.inr ⟨e, hc, by simpa using hd, rfl, rfl⟩)

/-- The only way a flush fails is the version check on the put it sends. -/
theorem cache_flush_eq_none {m : Cache} {t : Table} {eid : ℕ} {now : UInt32} :
    m.flush t eid now = none ↔ ∃ e f, m[eid]? = some e ∧ e.dirty = true ∧ t[eid]? = some f ∧
      e.attr.version ≠ f.a.version := by
  unfold Cache.flush
  split
  · rename_i hc
    simp [hc]
  · rename_i e hc
    split_ifs with hd
    · rw [Option.map_eq_none_iff, table_put_eq_none]
      simp [hc, hd]
    · simp [hc, hd]

end DisconnectedYfs.YFS
