import Std.Data.ExtTreeMap
import Mathlib.Data.Nat.Basic
import Mathlib.Algebra.Group.Nat.Defs
import Mathlib.Algebra.Group.Int.Defs

/-! The extent server (`extent_protocol.h`, `extent_server.cc`). Extent ids, lock ids and inode
numbers are one `unsigned long long` in the source; they are compared and used as map keys, so
they are natural numbers here. Version, size and times are `unsigned int` and wrap. -/
namespace DisconnectedYfs.YFS
open Std

/-- A `std::string`: arbitrary bytes. -/
abbrev Str := List UInt8

/-- `extent_protocol::attr`. `atime` is `none` while nothing has written the field of a freshly
declared `attr`, whose value is then indeterminate. -/
structure Attr where
  atime : Option UInt32 := none
  mtime : UInt32
  ctime : UInt32
  size : UInt32
  version : UInt32
  name : Str
deriving DecidableEq, Repr

/-- `extent_server::finfo`. -/
structure FInfo where
  buf : Str
  a : Attr
deriving DecidableEq, Repr

/-- `extent_server::table_`. -/
abbrev Table := ExtTreeMap ℕ FInfo

/-- `buf.size() * sizeof(char)` stored in an `unsigned int`. -/
def byteSize (buf : Str) : UInt32 := UInt32.ofNat buf.length

/-- `extent_server::put`; `none` is the failed version check, which aborts the server. -/
def Table.put (t : Table) (id : ℕ) (attr : Attr) (buf : Str) (now : UInt32) : Option Table :=
  let f (version : UInt32) : FInfo :=
    { buf := buf,
      a := { ctime := now, mtime := now, size := byteSize buf, name := attr.name,
             version := version } }
  match t[id]? with
  | some g => if attr.version = g.a.version then some (t.insert id (f (attr.version+1))) else none
  | none => some (t.insert id (f 1))

/-- `extent_server::get`; `none` is `NOENT`. The access time goes into a local copy of the entry,
so the table stays as it is. -/
def Table.get (t : Table) (id : ℕ) (now : UInt32) : Option Str :=
  (t[id]?).map (fun g =>
    let f := { g with a := { g.a with atime := some now } }
    f.buf)

/-- `extent_server::getattr`; `none` is `NOENT`. -/
def Table.getattr (t : Table) (id : ℕ) : Option Attr := (t[id]?).map FInfo.a

/-- `extent_server::remove`. -/
def Table.remove (t : Table) (id : ℕ) : Table := t.erase id

@[simp] theorem table_getElem_insert (t : Table) (id j : ℕ) (f : FInfo) :
    (t.insert id f)[j]? = if id = j then some f else t[j]? := by
  simp only [ExtTreeMap.getElem?_insert, LawfulEqCmp.compare_eq_iff_eq]

@[simp] theorem table_getElem_remove (t : Table) (id j : ℕ) :
    (t.remove id)[j]? = if id = j then none else t[j]? := by
  simp only [Table.remove, ExtTreeMap.getElem?_erase, LawfulEqCmp.compare_eq_iff_eq]

/-- What an accepted put leaves at its own id: the sent buffer and name, under the next version
of the extent, or version 1 for a new one. -/
theorem table_put_self {t t' : Table} {id : ℕ} {attr : Attr} {buf : Str} {now : UInt32}
    (h : t.put id attr buf now = some t') :
    ∃ f, t'[id]? = some f ∧ f.buf = buf ∧ f.a.size = byteSize buf ∧ f.a.name = attr.name ∧
      ((t[id]? = none ∧ f.a.version = 1) ∨
        ∃ g, t[id]? = some g ∧ attr.version = g.a.version ∧ f.a.version = g.a.version+1) := by
  unfold Table.put at h
  split at h
  · rename_i g hg
    split_ifs at h with hv
    cases h
    refine ⟨_, (table_getElem_insert t id id _).trans (if_pos rfl), rfl, rfl, rfl,
      Or.inr ⟨g, hg, hv, ?_⟩⟩
    simp only [hv]
  · rename_i hg
    cases h
    exact ⟨_, (table_getElem_insert t id id _).trans (if_pos rfl), rfl, rfl, rfl,
      Or.inl ⟨hg, rfl⟩⟩

theorem table_put_other {t t' : Table} {id j : ℕ} {attr : Attr} {buf : Str} {now : UInt32}
    (h : t.put id attr buf now = some t') (hj : id ≠ j) : t'[j]? = t[j]? := by
  unfold Table.put at h
  split at h
  · split_ifs at h
    cases h
    simp [hj]
  · cases h
    simp [hj]

/-- The version check is the only way a put fails. -/
theorem table_put_eq_none {t : Table} {id : ℕ} {attr : Attr} {buf : Str} {now : UInt32} :
    t.put id attr buf now = none ↔ ∃ g, t[id]? = some g ∧ attr.version ≠ g.a.version := by
  unfold Table.put
  split
  · rename_i g hg
    simp [hg]
  · rename_i hg
    simp [hg]

end DisconnectedYfs.YFS
