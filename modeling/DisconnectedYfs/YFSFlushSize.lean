import DisconnectedYfs.YFSFuse
import DisconnectedYfs.RPCRoundTrip
import DisconnectedYfs.RPCFraming

/-! The size of the request with which `flush` sends a file to the extent server. The limit on it
is in the connection that receives it. -/
namespace DisconnectedYfs.RPC

/-- Whenever there is a result, `n` bytes have been appended. -/
def Appends (f : Packing Unit) (n : ℕ) : Prop := ∀ m m', f m = some ((), m') → m'.ind = m.ind+n

section
variable {f g : Packing Unit} {n k : ℕ}

theorem Appends.seq (hf : Appends f n) (hg : Appends g k) : Appends (do f; g) (n+k) := by
  intro m m' h
  obtain ⟨m₁,hm₁,hg'⟩ := seq_some h
  rw [hg _ _ hg', hf _ _ hm₁]
  omega

theorem store_appends (p : Bytes) : Appends (Marshall.store p) p.length := by
  intro m m' h
  unfold Marshall.store at h
  split_ifs at h
  cases h
  rfl

theorem realloc_appends {f : Packing Unit} (hf : Appends f n) (capa : ℕ) :
    Appends (Marshall.realloc capa >>= fun _ => f) n := by
  intro m m' h
  change ((Marshall.realloc capa m).bind fun p => f p.2) = _ at h
  obtain ⟨p,hp,hf'⟩ := Option.bind_eq_some_iff.mp h
  unfold Marshall.realloc at hp
  split_ifs at hp
  cases hp
  have hind := hf _ _ hf'
  exact hind

theorem rawbyte_appends (x : UInt8) : Appends (Marshall.rawbyte x) 1 := by
  intro m m' h
  rw [rawbyte_apply] at h
  split_ifs at h
  · exact realloc_appends (store_appends [x]) _ m m' h
  · exact store_appends [x] m m' h

/-- Besides, the end of a string is an `int`. -/
theorem rawbytes_appends (p : Bytes) {m m' : Marshall} (h : Marshall.rawbytes p m = some ((), m')) :
    m'.ind = m.ind+p.length ∧ m'.ind < 2^31 := by
  have hint : ¬ m.ind+p.length ≥ 2^31 := by
    intro hlarge
    have hfail : Marshall.rawbytes p m = none := congrFun (if_pos hlarge) m
    rw [hfail] at h
    cases h
  have hind : m'.ind = m.ind+p.length := by
    rw [rawbytes_apply p m hint] at h
    by_cases hfull : m.ind+p.length > m.capa
    · rw [if_pos hfull] at h
      exact realloc_appends (store_appends p) _ m m' h
    · rw [if_neg hfull] at h
      exact store_appends p m m' h
  exact ⟨hind, by omega⟩

theorem shlUInt_appends (x : UInt32) : Appends (Marshall.shlUInt x) 4 :=
  (rawbyte_appends _).seq ((rawbyte_appends _).seq ((rawbyte_appends _).seq (rawbyte_appends _)))

theorem shlULongLong_appends (x : UInt64) : Appends (Marshall.shlULongLong x) 8 :=
  (shlUInt_appends _).seq (shlUInt_appends _)

theorem shlString_appends (s : Bytes) {m m' : Marshall}
    (h : Marshall.shlString s m = some ((), m')) : m'.ind = m.ind+(4+s.length) ∧ m'.ind < 2^31 := by
  obtain ⟨m₁,hm₁,hs⟩ := seq_some h
  obtain ⟨hind,hint⟩ := rawbytes_appends s hs
  have := shlUInt_appends _ _ _ hm₁
  omega

theorem attr_appends (a : WireAttr) : Appends (WireAttr.shl a) (24+a.name.length) := by
  have hname : Appends (Marshall.shlString a.name) (4+a.name.length) :=
    fun m m' h => (shlString_appends a.name h).1
  have hall := (shlUInt_appends a.atime).seq ((shlUInt_appends a.mtime).seq
    ((shlUInt_appends a.ctime).seq ((shlUInt_appends a.size).seq
      ((shlUInt_appends a.version).seq hname))))
  have hn : 4+(4+(4+(4+(4+(4+a.name.length))))) = 24+a.name.length := by omega
  rw [hn] at hall
  exact hall

/-- The header is packed into the place left for it. -/
theorem pack_appends (h : Header) : Appends (Header.pack h) 0 := by
  intro m m' hm
  rw [pack_eq_patch] at hm
  change ((h.fields { m with ind := rpcSz }).bind
    fun p => some ((), { p.2 with ind := m.ind })) = _ at hm
  obtain ⟨p,-,hp⟩ := Option.bind_eq_some_iff.mp hm
  cases hp
  rfl

end

/-- The receiver, between two PDUs, does not give the connection up when it reads this size. -/
def takesSize (n : ℕ) : Prop :=
  ∃ k taken, Connection.readpdu (be32 (UInt32.ofNat n)) (.data 4) (.failed true) {} =
    some (k, taken, true)

theorem takesSize_iff {n : ℕ} (h : n < 2^31) : takesSize n ↔ n ≤ 10*2^20 := by
  have hsize : Connection.ntohl (be32 (UInt32.ofNat n)) = n := by
    simpa using ntohl_be32 n h []
  have htake : (be32 (UInt32.ofNat n)).take rpcSz = be32 (UInt32.ofNat n) := rfl
  unfold takesSize Connection.readpdu
  simp only [htake, hsize]
  by_cases hle : n ≤ 10*2^20
  · have hmax : ¬ (n : ℤ) > maxPdu := by
      unfold maxPdu
      omega
    have halloc : ¬ Connection.allocSize n ≥ 2^63 := by
      unfold Connection.allocSize rpcSz
      omega
    simp [Connection.canRead, be32, rpcSz, hmax, Connection.readBody]
    omega
  · have hmax : (n : ℤ) > maxPdu := by
      unfold maxPdu
      omega
    simp [Connection.canRead, be32, rpcSz, hmax]
    omega

end DisconnectedYfs.RPC

namespace DisconnectedYfs.YFS
open Std RPC

/-- The attributes on the wire; `garbage` is what an `atime` that nobody has set holds. -/
def Attr.wire (a : Attr) (garbage : UInt32) : WireAttr :=
  { atime := a.atime.getD garbage, mtime := a.mtime, ctime := a.ctime, size := a.size,
    version := a.version, name := a.name }

/-- The request that `flush` makes of a cached extent: `call` marshals the arguments, `call1` packs
the header. -/
def putRequest (eid : UInt64) (e : Entry) (garbage : UInt32) (h : ReqHeader) : Packing Unit :=
  writeMessage (.req h)
    [⟨.ulonglong, eid⟩, ⟨.attr, e.attr.wire garbage⟩, ⟨.string, e.extent⟩] []

/-- The request can be marshalled, and the extent server's connection takes it. -/
def Taken (eid : UInt64) (e : Entry) (garbage : UInt32) (h : ReqHeader) (mem : Mem) : Prop :=
  ∃ m, putRequest eid e garbage h (Marshall.init mem) = some ((), m) ∧ takesSize m.ind

section
variable {eid : UInt64} {e : Entry} {garbage : UInt32} {h : ReqHeader} {mem : Mem} {m : Marshall}

theorem putRequest_size (hm : putRequest eid e garbage h (Marshall.init mem) = some ((), m)) :
    m.ind = 60+e.attr.name.length+e.extent.length ∧ m.ind < 2^31 := by
  obtain ⟨m₁,hargs,hm⟩ := seq_some hm
  obtain ⟨m₂,hpack,hm⟩ := seq_some hm
  cases hm
  obtain ⟨n₁,heid,hargs⟩ := seq_some hargs
  obtain ⟨n₂,hattr,hargs⟩ := seq_some hargs
  obtain ⟨n₃,hextent,hargs⟩ := seq_some hargs
  cases hargs
  have h₁ := shlULongLong_appends eid _ _ heid
  have h₂ := attr_appends (e.attr.wire garbage) _ _ hattr
  have h₃ := shlString_appends e.extent hextent
  have h₄ := pack_appends _ _ _ hpack
  have h₀ : (Marshall.init mem).ind = 24 := rfl
  have hn : (e.attr.wire garbage).name = e.attr.name := rfl
  rw [hn] at h₂
  omega

theorem taken_iff : Taken eid e garbage h mem ↔
    60+e.attr.name.length+e.extent.length ≤ 10*2^20 := by
  constructor
  · rintro ⟨m,hm,ht⟩
    obtain ⟨hsize,hint⟩ := putRequest_size hm
    rw [takesSize_iff hint] at ht
    omega
  · intro hle
    obtain ⟨m,hm,-⟩ := writeMessage_spec mem (.req h)
      [⟨.ulonglong, eid⟩, ⟨.attr, e.attr.wire garbage⟩, ⟨.string, e.extent⟩] [] (by
        simp [encodeAll, Ty.encode, be32, encodeAttr, encodeString, Attr.wire, rpcHeaderSz, rpcSz]
        omega)
    obtain ⟨hsize,hint⟩ := putRequest_size hm
    refine ⟨m, hm, (takesSize_iff hint).mpr ?_⟩
    omega

end

/-- The operations that change how long the file `f` is. -/
def Op.resizes (f : ℕ) : Op → Bool
  | .setattr ino _ | .write ino _ _ _ => ino = f
  | _ => false

/-- How long a file of `n` bytes is after an operation. `setattr` takes the old length modulo
2^32. -/
def Op.lengthAfter (n : ℕ) : Op → ℕ
  | .write _ buf off size => max n (off.toNat+min size.toNat buf.length)
  | .setattr _ newSize =>
    if newSize = 0 then 0
    else if newSize.toNat < n % 2^32 then newSize.toNat
    else n+(newSize.toNat-n % 2^32)
  | _ => n

/-- Operations one after the other, each of which returns `OK`. -/
def evalAll : List Op → Extents → Option Extents
  | [], x => some x
  | op :: ops, x =>
    match op.prog.eval x with
    | some (.ok _, x') => evalAll ops x'
    | _ => none

theorem rewrites_length (op : Op) (b : Str) :
    ((op.rewrites b).getD b).length = op.lengthAfter b.length := by
  cases op with
  | write ino buf off size => simp [Op.rewrites, patched_eq, Op.lengthAfter]
  | setattr ino newSize =>
    have hsize : (byteSize b).toNat = b.length % 2^32 := UInt32.toNat_ofNat'
    have hzero : newSize = 0 ↔ newSize.toNat = 0 := by
      rw [← UInt32.toNat_inj]
      rfl
    simp only [Op.rewrites, YfsClient.resized, hsize, Nat.mod_mod, Op.lengthAfter, hzero]
    split_ifs with h0 hlt hgt
    · rfl
    · have := Nat.mod_le b.length (2^32)
      rw [Option.getD_some, List.length_take]
      omega
    · simp
    · rw [Option.getD_none]
      omega
  | _ => rfl

section
variable {f : ℕ} {x : Extents} {b : Str} {op : Op}

theorem eval_resizes (hs : x.Sized) (hb : x.content f = some b) (hop : op.resizes f = true) :
    ∃ x' e, x'.Sized ∧ x'.cache[f]? = some e ∧ e.attr.name = x.name f ∧
      e.extent.length = op.lengthAfter b.length ∧ op.prog.eval x = some (.ok .done, x') := by
  have hlen := rewrites_length op b
  cases op with
  | write ino buf off size =>
    obtain rfl : ino = f := by simpa [Op.resizes] using hop
    obtain ⟨x',e,hs',he,hname,hext,heval⟩ := eval_write hs hb buf off size
    exact ⟨x', e, hs', he, hname, hext ▸ hlen, heval⟩
  | setattr ino newSize =>
    obtain rfl : ino = f := by simpa [Op.resizes] using hop
    obtain ⟨x',e,hs',he,hname,hext,heval⟩ := eval_setattr hs hb newSize
    exact ⟨x', e, hs', he, hname, hext ▸ hlen, heval⟩
  | _ => cases hop

/-- All of them return `OK`, whatever the length comes to. -/
theorem evalAll_resizes {ops : List Op} (hs : x.Sized) (hb : x.content f = some b)
    (hops : ∀ op ∈ ops, op.resizes f = true) :
    ∃ x', evalAll ops x = some x' ∧ x'.Sized ∧ x'.name f = x.name f ∧
      (∃ b', x'.content f = some b' ∧ b'.length = ops.foldl Op.lengthAfter b.length) ∧
      (ops ≠ [] → ∃ e, x'.cache[f]? = some e) := by
  induction ops generalizing x b with
  | nil => exact ⟨x, rfl, hs, rfl, ⟨b, hb, rfl⟩, fun h => absurd rfl h⟩
  | cons op ops ih =>
    obtain ⟨x₁,e,hs₁,he,hname,hlen,heval⟩ := eval_resizes hs hb (hops op (by simp))
    obtain ⟨hb₁,hn₁⟩ := cached_content he
    obtain ⟨x',hx',hs',hn',⟨b',hb',hlen'⟩,hcached⟩ :=
      ih hs₁ hb₁ (fun o ho => hops o (List.mem_cons_of_mem _ ho))
    refine ⟨x', ?_, hs', hn'.trans (hn₁.trans hname), ⟨b', hb', ?_⟩, fun _ => ?_⟩
    · rw [evalAll, heval]
      exact hx'
    · rw [hlen', hlen]
      rfl
    · by_cases hnil : ops = []
      · subst hnil
        cases hx'
        exact ⟨e, he⟩
      · exact hcached hnil

/-- Of these operations the last one leaves the file in the cache. -/
theorem evalAll_cached {ops : List Op} (hs : x.Sized) (hb : x.content f = some b)
    (hops : ∀ op ∈ ops, op.resizes f = true) (hne : ops ≠ []) :
    ∃ x' e, evalAll ops x = some x' ∧ x'.cache[f]? = some e ∧ e.attr.name = x.name f ∧
      e.extent.length = ops.foldl Op.lengthAfter b.length := by
  obtain ⟨x',hx',-,hname,⟨b',hb',hlen⟩,hcached⟩ := evalAll_resizes hs hb hops
  obtain ⟨e,he⟩ := hcached hne
  obtain ⟨hc,hn⟩ := cached_content he
  obtain rfl : e.extent = b' := Option.some.inj (hc.symm.trans hb')
  exact ⟨x', e, hx', he, hn.symm.trans hname, hlen⟩

/-- The extent server's connection takes the file exactly if the length that the operations give
it leaves room for the name and the 60 bytes of header, number, attributes and sizes. -/
theorem resized_file_flushed_iff {ops : List Op} (hs : x.Sized) (hb : x.content f = some b)
    (hops : ∀ op ∈ ops, op.resizes f = true) (hne : ops ≠ []) (eid : UInt64) (garbage : UInt32)
    (h : ReqHeader) (mem : Mem) :
    ∃ x' e, evalAll ops x = some x' ∧ x'.cache[f]? = some e ∧ (Taken eid e garbage h mem ↔
      60+(x.name f).length+ops.foldl Op.lengthAfter b.length ≤ 10*2^20) := by
  obtain ⟨x',e,hx',he,hname,hlen⟩ := evalAll_cached hs hb hops hne
  refine ⟨x', e, hx', he, ?_⟩
  rw [taken_iff, hname, hlen]

end

/-- A file named `a`, just made. -/
def emptyFile : Extents :=
  { cache := (∅ : Cache).insert 0x80000005
      { dirty := true, extent := [],
        attr := { mtime := 0, ctime := 0, size := 0, version := 0, name := [97] } },
    table := ∅, now := 0 }

theorem emptyFile_sized : emptyFile.Sized ∧ emptyFile.content 0x80000005 = some [] ∧
    emptyFile.name 0x80000005 = [97] := by
  refine ⟨⟨fun l e h => ?_, fun l g h => ?_⟩, ?_, ?_⟩
  · simp only [emptyFile, cache_getElem_insert] at h
    split_ifs at h
    · cases h
      rfl
    · simp at h
  · simp [emptyFile] at h
  · simp [Extents.content, emptyFile]
  · simp [Extents.name, emptyFile]

/-- It is written at 10 and cut off at 5. -/
theorem small_file_flushed : ∃ x e,
    evalAll [.write 0x80000005 [120, 121] 10 2, .setattr 0x80000005 5] emptyFile = some x ∧
      x.cache[0x80000005]? = some e ∧ Taken 0x80000005 e 0 ⟨1, 0, 0, 0, 0⟩ (fun _ => 0) := by
  obtain ⟨hs,hb,hname⟩ := emptyFile_sized
  have hops : ∀ op ∈ [Op.write 0x80000005 [120, 121] 10 2, .setattr 0x80000005 5],
      op.resizes 0x80000005 = true := by
    decide
  obtain ⟨x,e,hx,he,hiff⟩ := resized_file_flushed_iff hs hb hops (by simp) 0x80000005 0
    ⟨1, 0, 0, 0, 0⟩ (fun _ => 0)
  refine ⟨x, e, hx, he, hiff.mpr ?_⟩
  rw [hname]
  decide

/-- One byte at 10485760 is answered with `OK`; no request with it is taken. -/
theorem byte_past_limit_lost : ∃ x e,
    evalAll [.write 0x80000005 [120] 10485760 1] emptyFile = some x ∧
      x.cache[0x80000005]? = some e ∧ ∀ garbage h mem, ¬ Taken 0x80000005 e garbage h mem := by
  obtain ⟨hs,hb,hname⟩ := emptyFile_sized
  have hops : ∀ op ∈ [Op.write 0x80000005 [120] 10485760 1], op.resizes 0x80000005 = true := by
    decide
  obtain ⟨x,e,hx,he,hn,hlen⟩ := evalAll_cached hs hb hops (by simp)
  refine ⟨x, e, hx, he, ?_⟩
  intro garbage h mem
  rw [taken_iff, hn, hname, hlen]
  decide

end DisconnectedYfs.YFS
