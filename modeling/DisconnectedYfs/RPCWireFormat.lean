import DisconnectedYfs.RPCMarshall

/-! What the marshalling operators write and read, as byte strings: `encode` is the wire form of
a value, every `operator<<` appends it and every `operator>>` takes exactly it off the front. -/
namespace DisconnectedYfs.RPC
open OrderedMap

@[simp] theorem length_slice (b : Mem) (a n : ℕ) : (slice b a n).length = n := by
  simp [slice]

theorem slice_add (b : Mem) (a m n : ℕ) : slice b a (m+n) = slice b a m ++ slice b (a+m) n := by
  unfold slice
  rw [← List.map_append, List.range'_append_1]

theorem slice_congr {b b' : Mem} {a n : ℕ} (h : ∀ i, a ≤ i → i < a+n → b i = b' i) :
    slice b a n = slice b' a n := by
  apply List.map_congr_left
  intro i hi
  obtain ⟨h1,h2⟩ := List.mem_range'_1.mp hi
  exact h i h1 h2

/-! The bits of the integers. -/

theorem or_low (a : ℕ) {b k : ℕ} (h : b < 2^k) : a*2^k ||| b = a*2^k+b := by
  rw [Nat.mul_comm]
  exact (Nat.two_pow_add_eq_or_of_lt h a).symm

theorem mask_toUInt8 (x : UInt32) : x &&& 0xff = x.toUInt8.toUInt32 := by
  apply UInt32.toNat_inj.mp
  rw [UInt32.toNat_and, UInt8.toNat_toUInt32, UInt32.toNat_toUInt8]
  exact Nat.and_two_pow_sub_one_eq_mod x.toNat 8

theorem toUInt8_mask (x : UInt32) : (x &&& 0xff).toUInt8 = x.toUInt8 := by
  rw [mask_toUInt8, UInt8.toUInt8_toUInt32]

theorem toUInt8_mask16 (x : UInt16) : (x &&& 0xff).toUInt8 = x.toUInt8 := by
  apply UInt8.toNat_inj.mp
  rw [UInt16.toNat_toUInt8, UInt16.toNat_toUInt8, UInt16.toNat_and]
  have h := Nat.and_two_pow_sub_one_eq_mod x.toNat 8
  change (x.toNat &&& (2^8-1)) % 2^8 = x.toNat % 2^8
  rw [h, Nat.mod_mod]

/-- The sign extension of a byte keeps the byte. -/
theorem toUInt8_sext (b : UInt8) : b.toInt8.toInt32.toUInt32.toUInt8 = b := by
  apply UInt8.toBitVec_inj.mp
  change (b.toBitVec.signExtend 32).setWidth 8 = b.toBitVec
  apply BitVec.eq_of_getLsbD_eq
  intro i hi
  have hi' : i < 32 := by omega
  simp only [BitVec.getLsbD_setWidth, BitVec.getLsbD_signExtend, hi, hi', decide_true,
    Bool.true_and, if_true]

theorem sext_mask (b : UInt8) : b.toInt8.toInt32.toUInt32 &&& 0xff = b.toUInt32 := by
  rw [mask_toUInt8, toUInt8_sext]

/-- A byte shifted into place inside a 32-bit word is not cut. -/
theorem shifted_byte_mod (n : ℕ) {k j : ℕ} (hj : k+8 = j) (hk : j ≤ 32) :
    n/2^k%2^8*2^k%2^32 = n/2^k%2^8*2^k := by
  apply Nat.mod_eq_of_lt
  calc n/2^k%2^8*2^k < 2^8*2^k :=
        Nat.mul_lt_mul_of_pos_right (Nat.mod_lt _ (by decide)) (Nat.two_pow_pos k)
    _ = 2^j := by rw [← Nat.pow_add, Nat.add_comm 8 k, hj]
    _ ≤ 2^32 := Nat.pow_le_pow_right (by decide) hk

theorem join16 (x : UInt16) :
    ((x >>> 8).toUInt8.toUInt32 <<< 8).toUInt16 ||| x.toUInt8.toUInt32.toUInt16 = x := by
  apply UInt16.toNat_inj.mp
  have hx := x.toNat_lt
  simp only [UInt16.toNat_or, UInt32.toNat_toUInt16, UInt32.toNat_shiftLeft,
    UInt8.toNat_toUInt32, UInt16.toNat_toUInt8, UInt16.toNat_shiftRight, Nat.shiftLeft_eq,
    Nat.shiftRight_eq_div_pow, UInt16.reduceToNat, UInt32.reduceToNat, Nat.reduceMod]
  generalize x.toNat = n at *
  have h : n/2^8%2^8*2^8%2^32%2^16 = n/2^8*2^8 := by omega
  rw [h, or_low _ (by omega)]
  omega

theorem join32 (x : UInt32) :
    (x >>> 24).toUInt8.toUInt32 <<< 24 ||| (x >>> 16).toUInt8.toUInt32 <<< 16
      ||| (x >>> 8).toUInt8.toUInt32 <<< 8 ||| x.toUInt8.toUInt32 = x := by
  apply UInt32.toNat_inj.mp
  have hx := x.toNat_lt
  simp only [UInt32.toNat_or, UInt32.toNat_shiftLeft, UInt8.toNat_toUInt32,
    UInt32.toNat_toUInt8, UInt32.toNat_shiftRight, Nat.shiftLeft_eq,
    Nat.shiftRight_eq_div_pow, UInt32.reduceToNat, Nat.reduceMod]
  generalize x.toNat = n at *
  rw [shifted_byte_mod n (k := 24) rfl (by decide), shifted_byte_mod n (k := 16) rfl (by decide),
    shifted_byte_mod n (k := 8) rfl (by decide), Nat.or_assoc, Nat.or_assoc,
    or_low (n/2^8%2^8) (Nat.mod_lt _ (by decide)), or_low (n/2^16%2^8) (by omega),
    or_low _ (by omega)]
  omega

theorem join64 (x : UInt64) :
    x.toUInt32.toUInt64 ||| (x >>> 32).toUInt32.toUInt64 <<< 32 = x := by
  apply UInt64.toNat_inj.mp
  have hx := x.toNat_lt
  simp only [UInt64.toNat_or, UInt64.toNat_shiftLeft, UInt32.toNat_toUInt64,
    UInt64.toNat_toUInt32, UInt64.toNat_shiftRight, Nat.shiftLeft_eq,
    Nat.shiftRight_eq_div_pow, UInt64.reduceToNat, Nat.reduceMod]
  generalize x.toNat = n at *
  have h : n/2^32%2^32*2^32%2^64 = n/2^32*2^32 := by omega
  rw [h, Nat.or_comm, or_low _ (by omega)]
  omega

/-- An arithmetic shift by at most three bytes leaves the low byte a logical one would. -/
theorem sshiftRight_byte (x : BitVec 32) {k : ℕ} (hk : k ≤ 24) :
    (x.sshiftRight k).setWidth 8 = (x >>> k).setWidth 8 := by
  apply BitVec.eq_of_getLsbD_eq
  intro i hi
  have hi' : ¬ 32 ≤ i := by omega
  have hki : k+i < 32 := by omega
  simp only [BitVec.getLsbD_setWidth, BitVec.getLsbD_sshiftRight, BitVec.getLsbD_ushiftRight, hi,
    hki, hi', decide_false, decide_true, Bool.not_false, Bool.true_and, if_true]

/-! The wire form. -/

/-- A 32-bit word in network order. -/
def be32 (x : UInt32) : Bytes :=
  [(x >>> 24).toUInt8, (x >>> 16).toUInt8, (x >>> 8).toUInt8, x.toUInt8]

def be16 (x : UInt16) : Bytes := [(x >>> 8).toUInt8, x.toUInt8]

def encodeString (s : Bytes) : Bytes := be32 (UInt32.ofNat s.length) ++ s

def encodeAttr (a : WireAttr) : Bytes :=
  be32 a.atime ++ (be32 a.mtime ++ (be32 a.ctime ++ (be32 a.size ++ (be32 a.version ++
    encodeString a.name))))

def Ty.encode : (t : Ty) → t.Val → Bytes
  | .bool, (x : Bool) => [x.toUInt8]
  | .char, (x : Int8) => [x.toUInt8]
  | .uchar, (x : UInt8) => [x]
  | .short, (x : Int16) => be16 x.toUInt16
  | .ushort, (x : UInt16) => be16 x
  | .int, (x : Int32) => be32 x.toUInt32
  | .uint, (x : UInt32) => be32 x
  | .ulonglong, (x : UInt64) => be32 (x >>> 32).toUInt32 ++ be32 x.toUInt32
  | .string, x => encodeString x
  | .attr, x => encodeAttr x
  | .vector t, (v : List t.Val) => be32 (UInt32.ofNat v.length) ++ v.flatMap t.encode
  | .map k v, (d : OMap k.sem.order v.Val) =>
    be32 (UInt32.ofNat d.1.length) ++ d.1.flatMap (fun x => k.encode x.1 ++ v.encode x.2)

/-- The wire form of the values of a message, one after the other. -/
def encodeAll (vs : List Value) : Bytes := vs.flatMap (fun v => v.1.encode v.2)

/-- No value has an empty wire form. -/
theorem encode_length_pos (t : Ty) (x : t.Val) : 0 < (t.encode x).length := by
  cases t with
  | uchar => exact Nat.zero_lt_one
  | _ => simp [Ty.encode, be16, be32, encodeString, encodeAttr]

def encodeHeader : Header → Bytes
  | .req h => be32 h.xid.toUInt32 ++ (be32 h.proc.toUInt32 ++ (be32 h.cltNonce ++
      (be32 h.srvNonce ++ be32 h.xidRep.toUInt32)))
  | .reply h => be32 h.xid.toUInt32 ++ be32 h.ret.toUInt32

theorem encodeHeader_length_le (h : Header) : rpcSz+(encodeHeader h).length ≤ rpcHeaderSz := by
  cases h <;> simp [encodeHeader, be32, rpcSz, rpcHeaderSz]

/-! Writing. -/

/-- What an operator that appends `bs` makes of the buffer: the rest of the memory stays. -/
structure Wrote (m : Marshall) (bs : Bytes) (m' : Marshall) : Prop where
  ind : m'.ind = m.ind+bs.length
  grown : m.capa ≤ m'.capa
  fits : m'.ind ≤ m'.capa
  bytes : slice m'.buf m.ind bs.length = bs
  frame : ∀ i, i < m.ind ∨ m.ind+bs.length ≤ i → m'.buf i = m.buf i

/-- The operator appends `bs` to every buffer that is not within a byte of `2^30`. -/
def Writes (f : Packing Unit) (bs : Bytes) : Prop :=
  ∀ m : Marshall, 1024 ≤ m.capa → m.ind ≤ m.capa → m.ind+bs.length < 2^30 →
    ∃ m', f m = some ((), m') ∧ Wrote m bs m'

theorem Wrote.append {m m₁ m₂ : Marshall} {a b : Bytes} (h : Wrote m a m₁) (h' : Wrote m₁ b m₂) :
    Wrote m (a ++ b) m₂ where
  ind := by rw [h'.ind, h.ind, List.length_append, Nat.add_assoc]
  grown := Nat.le_trans h.grown h'.grown
  fits := h'.fits
  bytes := by
    have hind := h.ind
    have ha : slice m₂.buf m.ind a.length = slice m₁.buf m.ind a.length :=
      slice_congr (fun i _ hi => h'.frame i (Or.inl (by omega)))
    rw [List.length_append, slice_add, ha, h.bytes, ← hind, h'.bytes]
  frame := by
    intro i hi
    have hind := h.ind
    rw [List.length_append] at hi
    rw [h'.frame i (by omega), h.frame i (by omega)]

theorem Writes.seq {f g : Packing Unit} {a b : Bytes} (hf : Writes f a) (hg : Writes g b) :
    Writes (do f; g) (a ++ b) := by
  intro m hc hm hl
  rw [List.length_append] at hl
  obtain ⟨m₁,hm₁,hw₁⟩ := hf m hc hm (by omega)
  have hind := hw₁.ind
  obtain ⟨m₂,hm₂,hw₂⟩ := hg m₁ (Nat.le_trans hc hw₁.grown) hw₁.fits (by omega)
  refine ⟨m₂, ?_, hw₁.append hw₂⟩
  change ((f m).bind fun p => g p.2) = _
  rw [hm₁]
  exact hm₂

theorem Writes.nil : Writes (pure ()) [] := by
  intro m _ hm _
  exact ⟨m, rfl, ⟨rfl, Nat.le_refl _, hm, rfl, fun _ _ => rfl⟩⟩

theorem Writes.forM {α : Type} {f : α → Packing Unit} {e : α → Bytes}
    (h : ∀ x, Writes (f x) (e x)) (l : List α) : Writes (l.forM f) (l.flatMap e) := by
  induction l with
  | nil => exact Writes.nil
  | cons x xs ih => exact (h x).seq ih

/-- A store into a buffer with room for it. -/
theorem store_wrote (p : Bytes) {m : Marshall} (h : m.ind+p.length ≤ m.capa) :
    ∃ m', Marshall.store p m = some ((), m') ∧ Wrote m p m' := by
  refine ⟨_, if_pos h, ⟨rfl, Nat.le_refl _, h, ?_, ?_⟩⟩
  · apply List.ext_getElem
    · rw [length_slice]
    · intro i hi hi'
      simp [slice, hi']
  · intro i hi
    rcases hi with hi | hi
    · exact if_neg (by omega)
    · change (if m.ind ≤ i then p.getD (i-m.ind) (m.buf i) else m.buf i) = m.buf i
      rw [if_pos (by omega), List.getD_eq_getElem?_getD, List.getElem?_eq_none (by omega),
        Option.getD_none]

/-- Growing first does not matter for what is written. -/
theorem Wrote.of_realloc {m m' : Marshall} {bs : Bytes} {n : ℕ} (hn : m.capa ≤ n)
    (h : Wrote { m with capa := n } bs m') : Wrote m bs m' :=
  ⟨h.ind, Nat.le_trans hn h.grown, h.fits, h.bytes, h.frame⟩

theorem realloc_of_lt {n : ℕ} (h : n < 2^31) (m : Marshall) :
    Marshall.realloc n m = some ((), { m with capa := n }) := if_pos h

theorem rawbyte_apply (x : UInt8) (m : Marshall) : Marshall.rawbyte x m =
    (if m.ind ≥ m.capa then Marshall.realloc (m.capa*2) >>= fun _ => Marshall.store [x]
      else Marshall.store [x]) m := rfl

theorem rawbytes_apply (p : Bytes) (m : Marshall) (h : ¬ m.ind+p.length ≥ 2^31) :
    Marshall.rawbytes p m =
      (if m.ind+p.length > m.capa then
        Marshall.realloc (if m.capa > p.length then 2*m.capa else m.capa+p.length) >>=
          fun _ => Marshall.store p
        else Marshall.store p) m := congrFun (if_neg h) m

theorem packing_bind {f : Packing Unit} {g : Unit → Packing Unit} {m m' : Marshall}
    (h : f m = some ((), m')) : (f >>= g) m = g () m' := by
  change (f m).bind _ = _
  rw [h]
  rfl

theorem seq_some {f g : Packing Unit} {m m' : Marshall} (h : (do f; g) m = some ((), m')) :
    ∃ m₁, f m = some ((), m₁) ∧ g m₁ = some ((), m') := by
  change ((f m).bind fun p => g p.2) = _ at h
  obtain ⟨p,hp,hg⟩ := Option.bind_eq_some_iff.mp h
  exact ⟨p.2, hp, hg⟩

theorem writes_rawbyte (x : UInt8) : Writes (Marshall.rawbyte x) [x] := by
  intro m hc hm hl
  have hl' : m.ind+1 < 2^30 := hl
  by_cases hfull : m.ind ≥ m.capa
  · have hbound : m.capa*2 < 2^31 := by omega
    obtain ⟨m',hm',hw⟩ := store_wrote [x] (m := { m with capa := m.capa*2 })
      (show m.ind+1 ≤ m.capa*2 by omega)
    refine ⟨m', ?_, hw.of_realloc (by omega)⟩
    rw [rawbyte_apply, if_pos hfull, packing_bind (realloc_of_lt hbound m)]
    exact hm'
  · obtain ⟨m',hm',hw⟩ := store_wrote [x] (m := m) (show m.ind+1 ≤ m.capa by omega)
    refine ⟨m', ?_, hw⟩
    rw [rawbyte_apply, if_neg hfull]
    exact hm'

theorem writes_rawbytes (p : Bytes) : Writes (Marshall.rawbytes p) p := by
  intro m hc hm hl
  have hint : ¬ m.ind+p.length ≥ 2^31 := by omega
  by_cases hfull : m.ind+p.length > m.capa
  · -- the new capacity, whichever of the two it is, has room and is an `int`
    obtain ⟨n,hn⟩ : ∃ n, n = if m.capa > p.length then 2*m.capa else m.capa+p.length := ⟨_, rfl⟩
    have hroom : m.ind+p.length ≤ n ∧ m.capa ≤ n ∧ n < 2^31 := by
      split_ifs at hn <;> omega
    obtain ⟨m',hm',hw⟩ := store_wrote p (m := { m with capa := n }) hroom.1
    refine ⟨m', ?_, hw.of_realloc hroom.2.1⟩
    rw [rawbytes_apply p m hint, if_pos hfull, ← hn, packing_bind (realloc_of_lt hroom.2.2 m)]
    exact hm'
  · obtain ⟨m',hm',hw⟩ := store_wrote p (m := m) (by omega)
    refine ⟨m', ?_, hw⟩
    rw [rawbytes_apply p m hint, if_neg hfull]
    exact hm'

theorem writes_shlUShort (x : UInt16) : Writes (Marshall.shlUShort x) (be16 x) := by
  unfold Marshall.shlUShort
  rw [toUInt8_mask16, toUInt8_mask16]
  exact (writes_rawbyte _).seq (writes_rawbyte _)

theorem writes_shlUInt (x : UInt32) : Writes (Marshall.shlUInt x) (be32 x) := by
  unfold Marshall.shlUInt
  rw [toUInt8_mask, toUInt8_mask, toUInt8_mask, toUInt8_mask]
  exact (writes_rawbyte _).seq ((writes_rawbyte _).seq
    ((writes_rawbyte _).seq (writes_rawbyte _)))

/-- `pack` writes what `operator<<` writes for the same bits. -/
theorem pack_eq_shlUInt (x : Int32) : Marshall.pack x = Marshall.shlUInt x.toUInt32 := by
  have hbyte : ∀ y : Int32, (y &&& 0xff).toUInt32.toUInt8 = (y.toUInt32 &&& 0xff).toUInt8 :=
    fun y => rfl
  have h24 : (x >>> 24).toUInt32.toUInt8 = (x.toUInt32 >>> 24).toUInt8 :=
    UInt8.toBitVec_inj.mp (sshiftRight_byte x.toBitVec (k := 24) (by omega))
  have h16 : (x >>> 16).toUInt32.toUInt8 = (x.toUInt32 >>> 16).toUInt8 :=
    UInt8.toBitVec_inj.mp (sshiftRight_byte x.toBitVec (k := 16) (by omega))
  have h8 : (x >>> 8).toUInt32.toUInt8 = (x.toUInt32 >>> 8).toUInt8 :=
    UInt8.toBitVec_inj.mp (sshiftRight_byte x.toBitVec (k := 8) (by omega))
  unfold Marshall.pack Marshall.shlUInt
  rw [hbyte, hbyte, hbyte, hbyte, toUInt8_mask, toUInt8_mask, toUInt8_mask, toUInt8_mask,
    toUInt8_mask, toUInt8_mask, toUInt8_mask, h24, h16, h8]

theorem writes_pack (x : Int32) : Writes (Marshall.pack x) (be32 x.toUInt32) := by
  rw [pack_eq_shlUInt]
  exact writes_shlUInt x.toUInt32

theorem writes_shlString (s : Bytes) : Writes (Marshall.shlString s) (encodeString s) :=
  (writes_shlUInt _).seq (writes_rawbytes s)

/-- Every `operator<<` appends the wire form of its value. -/
theorem writes_shl (t : Ty) (x : t.Val) : Writes (t.shl x) (t.encode x) := by
  induction t with
  | bool => exact writes_rawbyte _
  | char => exact writes_rawbyte _
  | uchar => exact writes_rawbyte _
  | short => exact writes_shlUShort _
  | ushort => exact writes_shlUShort _
  | int => exact writes_shlUInt _
  | uint => exact writes_shlUInt _
  | ulonglong => exact (writes_shlUInt _).seq (writes_shlUInt _)
  | string => exact writes_shlString x
  | attr =>
    exact (writes_shlUInt _).seq ((writes_shlUInt _).seq ((writes_shlUInt _).seq
      ((writes_shlUInt _).seq ((writes_shlUInt _).seq (writes_shlString _)))))
  | vector t ih => exact (writes_shlUInt _).seq (Writes.forM ih x)
  | map k v ihk ihv =>
    exact (writes_shlUInt _).seq
      (Writes.forM (fun y => (ihk y.1).seq (ihv y.2)) (Subtype.val x))

theorem writes_shlAll (vs : List Value) : Writes (shlAll vs) (encodeAll vs) :=
  Writes.forM (f := fun v : Value => v.1.shl v.2) (e := fun v => v.1.encode v.2)
    (fun v => writes_shl v.1 v.2) vs

/-- Writing at the start of the header area and going back to the old position. -/
def patch (f : Packing Unit) : Packing Unit := do
  let saved := (← get).ind
  modify ({ · with ind := rpcSz })
  f
  modify ({ · with ind := saved })

theorem patch_spec {f : Packing Unit} {bs : Bytes} (hf : Writes f bs) {m : Marshall}
    (hc : 1024 ≤ m.capa) (hl : rpcSz+bs.length < 2^30) :
    ∃ m', patch f m = some ((), m') ∧ m'.ind = m.ind ∧ m.capa ≤ m'.capa ∧
      slice m'.buf rpcSz bs.length = bs ∧
      ∀ i, i < rpcSz ∨ rpcSz+bs.length ≤ i → m'.buf i = m.buf i := by
  have hle : rpcSz ≤ m.capa := Nat.le_trans (by decide) hc
  obtain ⟨m',hm',hw⟩ := hf { m with ind := rpcSz } hc hle hl
  refine ⟨{ m' with ind := m.ind }, ?_, rfl, hw.grown, hw.bytes, hw.frame⟩
  change ((f { m with ind := rpcSz }).bind fun p => some ((), { p.2 with ind := m.ind })) = _
  rw [hm']
  rfl

/-- What a header is packed from, between the two moves of the index. -/
def Header.fields : Header → Packing Unit
  | .req h => do
    Marshall.pack h.xid
    Marshall.pack h.proc
    Marshall.pack h.cltNonce.toInt32
    Marshall.pack h.srvNonce.toInt32
    Marshall.pack h.xidRep
  | .reply h => do
    Marshall.pack h.xid
    Marshall.pack h.ret

theorem pack_eq_patch (h : Header) : Header.pack h = patch h.fields := by
  cases h with
  | req h => simp only [Header.pack, Header.fields, Marshall.packReqHeader, patch, bind_assoc]
  | reply h => simp only [Header.pack, Header.fields, Marshall.packReplyHeader, patch, bind_assoc]

theorem writes_fields (h : Header) : Writes h.fields (encodeHeader h) := by
  cases h with
  | req h =>
    exact (writes_pack h.xid).seq ((writes_pack h.proc).seq
      ((writes_pack h.cltNonce.toInt32).seq ((writes_pack h.srvNonce.toInt32).seq
        (writes_pack h.xidRep))))
  | reply h => exact (writes_pack h.xid).seq (writes_pack h.ret)

/-! Reading. -/

/-- The unread part of the buffer starts with `bs`. -/
structure Holds (u : Unmarshall) (bs : Bytes) : Prop where
  ok : u.ok = true
  int : u.sz < 2^31
  room : u.ind+bs.length ≤ u.sz
  bytes : slice u.buf u.ind bs.length = bs

/-- The operator takes `bs` off the buffer and returns `x`. -/
def Reads {α : Type} (f : Unpacking α) (bs : Bytes) (x : α) : Prop :=
  ∀ u, Holds u bs → f u = (x, { u with ind := u.ind+bs.length })

theorem Holds.append_left {u : Unmarshall} {a b : Bytes} (h : Holds u (a ++ b)) : Holds u a := by
  have hr := h.room
  have hb := h.bytes
  rw [List.length_append] at hr hb
  rw [slice_add] at hb
  exact ⟨h.ok, h.int, by omega, (List.append_inj hb (length_slice _ _ _)).1⟩

theorem Holds.append_right {u : Unmarshall} {a b : Bytes} (h : Holds u (a ++ b)) :
    Holds { u with ind := u.ind+a.length } b := by
  have hr := h.room
  have hb := h.bytes
  rw [List.length_append] at hr hb
  rw [slice_add] at hb
  exact ⟨h.ok, h.int, by rw [Nat.add_assoc]; exact hr,
    (List.append_inj hb (length_slice _ _ _)).2⟩

theorem Reads.bind {α β : Type} {f : Unpacking α} {g : α → Unpacking β} {a b : Bytes} {x : α}
    {y : β} (hf : Reads f a x) (hg : Reads (g x) b y) : Reads (f >>= g) (a ++ b) y := by
  intro u hu
  have h1 := hf u hu.append_left
  have h2 := hg _ hu.append_right
  change g (f u).1 (f u).2 = _
  rw [h1]
  rw [h2, List.length_append]
  simp only [Nat.add_assoc]

theorem Reads.pure {α : Type} (x : α) : Reads (pure x) [] x := by
  intro u _
  rfl

theorem Reads.map {α β : Type} {f : Unpacking α} {a : Bytes} {x : α} (g : α → β)
    (hf : Reads f a x) : Reads (do return g (← f)) a (g x) := by
  have h := hf.bind (g := fun y => Pure.pure (g y)) (Reads.pure (g x))
  rw [List.append_nil] at h
  exact h

/-- Only what fits into a buffer has to be read. -/
theorem Reads.of_length {α : Type} {f : Unpacking α} {a : Bytes} {x : α}
    (h : a.length < 2^31 → Reads f a x) : Reads f a x := by
  intro u hu
  have hr := hu.room
  have hi := hu.int
  exact h (by omega) u hu

theorem reads_rawbyte (b : UInt8) : Reads Unmarshall.rawbyte [b] b.toInt8.toInt32.toUInt32 := by
  intro u hu
  have hr : u.ind+1 ≤ u.sz := hu.room
  have hb : u.buf u.ind = b := List.cons.inj hu.bytes |>.1
  unfold Unmarshall.rawbyte
  rw [if_neg (by omega), hb]
  rfl

theorem reads_rawbytes (s p : Bytes) (hp : p.length < 2^31) :
    Reads (Unmarshall.rawbytes s (UInt32.ofNat p.length)) p p := by
  intro u hu
  have hr := hu.room
  have hi := hu.int
  have hn : (UInt32.ofNat p.length).toNat = p.length :=
    UInt32.toNat_ofNat_of_lt (show p.length < 2^32 by omega)
  have hmod : (u.ind+p.length) % 2^32 = u.ind+p.length := Nat.mod_eq_of_lt (by omega)
  unfold Unmarshall.rawbytes
  rw [hn, hmod, if_neg (by omega), hu.bytes]

/-- An operator that ends by returning `y` returns `x` if they are equal. -/
theorem Reads.pure_eq {α : Type} {x y : α} (h : y = x) : Reads (Pure.pure y) [] x :=
  h ▸ Reads.pure y

theorem reads_shrUShort (x : UInt16) : Reads Unmarshall.shrUShort (be16 x) x := by
  refine Reads.bind (a := [_]) (reads_rawbyte _) ?_
  refine Reads.bind (a := [_]) (reads_rawbyte _) ?_
  apply Reads.pure_eq
  rw [sext_mask, sext_mask]
  exact join16 x

theorem reads_shrShort (x : Int16) : Reads Unmarshall.shrShort (be16 x.toUInt16) x := by
  refine Reads.bind (a := [_]) (reads_rawbyte _) ?_
  refine Reads.bind (a := [_]) (reads_rawbyte _) ?_
  apply Reads.pure_eq
  rw [sext_mask, sext_mask]
  exact congrArg UInt16.toInt16 (join16 x.toUInt16)

theorem reads_shrUInt (x : UInt32) : Reads Unmarshall.shrUInt (be32 x) x := by
  refine Reads.bind (a := [_]) (reads_rawbyte _) ?_
  refine Reads.bind (a := [_]) (reads_rawbyte _) ?_
  refine Reads.bind (a := [_]) (reads_rawbyte _) ?_
  refine Reads.bind (a := [_]) (reads_rawbyte _) ?_
  apply Reads.pure_eq
  rw [sext_mask, sext_mask, sext_mask, sext_mask]
  exact join32 x

theorem reads_shrInt (x : Int32) : Reads Unmarshall.shrInt (be32 x.toUInt32) x := by
  refine Reads.bind (a := [_]) (reads_rawbyte _) ?_
  refine Reads.bind (a := [_]) (reads_rawbyte _) ?_
  refine Reads.bind (a := [_]) (reads_rawbyte _) ?_
  refine Reads.bind (a := [_]) (reads_rawbyte _) ?_
  apply Reads.pure_eq
  rw [sext_mask, sext_mask, sext_mask, sext_mask]
  exact congrArg UInt32.toInt32 (join32 x.toUInt32)

theorem reads_shrULongLong (x : UInt64) :
    Reads Unmarshall.shrULongLong (be32 (x >>> 32).toUInt32 ++ be32 x.toUInt32) x := by
  refine (reads_shrUInt _).bind ?_
  refine Reads.bind (b := []) (reads_shrUInt _) ?_
  exact Reads.pure_eq (join64 x)

theorem reads_shrBool (x : Bool) : Reads Unmarshall.shrBool [x.toUInt8] x := by
  refine Reads.bind (a := [_]) (reads_rawbyte _) ?_
  apply Reads.pure_eq
  cases x <;> rfl

theorem reads_shrUChar (x : UInt8) : Reads Unmarshall.shrUChar [x] x := by
  refine Reads.bind (a := [_]) (reads_rawbyte _) ?_
  exact Reads.pure_eq (toUInt8_sext x)

theorem reads_shrChar (x : Int8) : Reads Unmarshall.shrChar [x.toUInt8] x := by
  refine Reads.bind (a := [_]) (reads_rawbyte _) ?_
  exact Reads.pure_eq (congrArg UInt8.toInt8 (toUInt8_sext x.toUInt8))

/-- The old value of the destination is gone. -/
theorem reads_shrString (s p : Bytes) : Reads (Unmarshall.shrString s) (encodeString p) p := by
  apply Reads.of_length
  intro hl
  have hp : p.length < 2^31 := by
    have : p.length ≤ (encodeString p).length := by simp [encodeString]
    omega
  refine (reads_shrUInt _).bind ?_
  intro u hu
  change (if u.ok = true then Unmarshall.rawbytes s _ else Pure.pure s) u = _
  rw [if_pos hu.ok]
  exact reads_rawbytes s p hp u hu

theorem reads_shrAttr (a b : WireAttr) : Reads (WireAttr.shr a) (encodeAttr b) b := by
  refine (reads_shrUInt _).bind ((reads_shrUInt _).bind ((reads_shrUInt _).bind
    ((reads_shrUInt _).bind ((reads_shrUInt _).bind ?_))))
  exact (reads_shrString a.name b.name).map (fun name => WireAttr.mk b.atime b.mtime b.ctime
    b.size b.version name)

/-- The loop of a vector: what is read goes behind what the vector holds. -/
theorem reads_vector_loop {t : Ty} (h : ∀ x, Reads (t.shr t.sem.fresh) (t.encode x) x)
    (l acc : List t.Val) :
    Reads (iterate (fun (v : List t.Val) => do
      let z ← t.shr t.sem.fresh
      return v ++ [z]) l.length acc) (l.flatMap t.encode) (acc ++ l) := by
  induction l generalizing acc with
  | nil =>
    rw [List.append_nil]
    exact Reads.pure acc
  | cons x xs ih =>
    have hbody := (h x).map (fun z => acc ++ [z])
    have hrest := ih (acc ++ [x])
    rw [List.append_assoc] at hrest
    exact hbody.bind hrest

/-- The loop of a map: the entries arrive in key order, so each goes behind the others. -/
theorem reads_map_loop {k v : Ty} (hk : ∀ x, Reads (k.shr k.sem.fresh) (k.encode x) x)
    (hv : ∀ x, Reads (v.shr v.sem.fresh) (v.encode x) x) (d : OMap k.sem.order v.Val)
    (l : List (k.Val × v.Val)) (acc : OMap k.sem.order v.Val) (hd : d.1 = acc.1 ++ l) :
    Reads (iterate (fun (d : OMap k.sem.order v.Val) => do
      let a ← k.shr k.sem.fresh
      let b ← v.shr v.sem.fresh
      return d.insert a b) l.length acc)
      (l.flatMap (fun x => k.encode x.1 ++ v.encode x.2)) d := by
  induction l generalizing acc with
  | nil =>
    rw [List.append_nil] at hd
    exact Reads.pure_eq (Subtype.ext hd.symm)
  | cons x xs ih =>
    have hbody := (hk x.1).bind (g := fun a => do return acc.insert a (← v.shr v.sem.fresh))
      ((hv x.2).map (fun b => acc.insert x.1 b))
    have hinc : Increasing k.sem.order (acc.1 ++ [x]) := by
      have hsub : (acc.1 ++ [x]).Sublist d.1 := by
        rw [hd]
        exact List.Sublist.append_left (List.singleton_sublist.mpr List.mem_cons_self) _
      exact List.Pairwise.sublist hsub d.2
    have hins : (acc.insert x.1 x.2).1 = acc.1 ++ [x] := OMap.insert_snoc hinc acc rfl
    refine hbody.bind (ih (acc.insert x.1 x.2) ?_)
    rw [hins, hd, List.append_assoc]
    rfl

/-- The element count of a container whose wire form fits into a buffer is not cut. -/
theorem count_toNat {α : Type} {e : α → Bytes} (he : ∀ x, 0 < (e x).length) (l : List α)
    (h : (l.flatMap e).length < 2^31) : (UInt32.ofNat l.length).toNat = l.length := by
  have hle : l.length ≤ (l.flatMap e).length := by
    clear h
    induction l with
    | nil => exact Nat.le_refl 0
    | cons x xs ih =>
      have hx := he x
      rw [List.flatMap_cons, List.length_append, List.length_cons]
      omega
  exact UInt32.toNat_ofNat_of_lt (show l.length < 2^32 by omega)

theorem reads_shr_vector_onto {t : Ty} (h : ∀ x, Reads (t.shr t.sem.fresh) (t.encode x) x)
    (old l : List t.Val) :
    Reads (Ty.shr (.vector t) old) (Ty.encode (.vector t) l) (old ++ l : List t.Val) := by
  apply Reads.of_length
  intro hl
  have hlen : (l.flatMap t.encode).length < 2^31 := by
    simp only [Ty.encode, List.length_append] at hl
    omega
  refine (reads_shrUInt _).bind ?_
  rw [count_toNat (encode_length_pos t) l hlen]
  exact reads_vector_loop h l old

theorem reads_shr_map {k v : Ty} (hk : ∀ x, Reads (k.shr k.sem.fresh) (k.encode x) x)
    (hv : ∀ x, Reads (v.shr v.sem.fresh) (v.encode x) x) (d old : OMap k.sem.order v.Val) :
    Reads (Ty.shr (.map k v) old) (Ty.encode (.map k v) d) d := by
  apply Reads.of_length
  intro hl
  have hlen : (d.1.flatMap (fun x => k.encode x.1 ++ v.encode x.2)).length < 2^31 := by
    simp only [Ty.encode, List.length_append] at hl
    omega
  have hpos : ∀ y : k.Val × v.Val, 0 < (k.encode y.1 ++ v.encode y.2).length := by
    intro y
    have h := encode_length_pos k y.1
    rw [List.length_append]
    omega
  refine (reads_shrUInt _).bind ?_
  rw [count_toNat hpos d.1 hlen]
  exact reads_map_loop hk hv d d.1 OMap.empty rfl

/-- Every `operator>>` takes the wire form of a value off the buffer. -/
theorem reads_shr (t : Ty) (x : t.Val) : Reads (t.shr t.sem.fresh) (t.encode x) x := by
  induction t with
  | bool => exact reads_shrBool x
  | char => exact reads_shrChar x
  | uchar => exact reads_shrUChar x
  | short => exact reads_shrShort x
  | ushort => exact reads_shrUShort x
  | int => exact reads_shrInt x
  | uint => exact reads_shrUInt x
  | ulonglong => exact reads_shrULongLong x
  | string => exact reads_shrString _ x
  | attr => exact reads_shrAttr _ x
  | vector t ih => exact reads_shr_vector_onto ih [] x
  | map k v ihk ihv => exact reads_shr_map ihk ihv x _

theorem reads_shrAll (vs : List Value) : Reads (shrAll (vs.map Sigma.fst)) (encodeAll vs) vs := by
  induction vs with
  | nil => exact Reads.pure []
  | cons v vs ih => exact (reads_shr v.1 v.2).bind (ih.map (fun xs => v :: xs))

/-- The read position is put to the header area, and behind it afterwards. -/
def unpatch {α : Type} (f : Unpacking α) : Unpacking α := do
  modify ({ · with ind := rpcSz })
  let x ← f
  modify ({ · with ind := rpcHeaderSz })
  return x

theorem unpatch_spec {α : Type} {f : Unpacking α} {bs : Bytes} {x : α} (hf : Reads f bs x)
    {u : Unmarshall} (hu : Holds { u with ind := rpcSz } bs) :
    unpatch f u = (x, { u with ind := rpcHeaderSz }) := by
  change ((f { u with ind := rpcSz }).1, { (f { u with ind := rpcSz }).2 with ind := rpcHeaderSz })
    = _
  rw [hf _ hu]

theorem unpackHeader_eq_unpatch (h : Header) :
    ∃ f, unpackHeader h.kind = unpatch f ∧ Reads f (encodeHeader h) h := by
  cases h with
  | req h =>
    have hread : Reads (do
        let xid ← Unmarshall.unpack
        let proc ← Unmarshall.unpack
        let cltNonce ← Unmarshall.unpack
        let srvNonce ← Unmarshall.unpack
        return Header.req ⟨xid, proc, cltNonce.toUInt32, srvNonce.toUInt32, ← Unmarshall.unpack⟩)
        (encodeHeader (.req h)) (.req h) :=
      (reads_shrInt h.xid).bind ((reads_shrInt h.proc).bind ((reads_shrInt h.cltNonce.toInt32).bind
        ((reads_shrInt h.srvNonce.toInt32).bind ((reads_shrInt h.xidRep).map _))))
    refine ⟨_, ?_, hread⟩
    simp only [unpackHeader, Header.kind, Unmarshall.unpackReqHeader, unpatch, bind_assoc,
      pure_bind, map_eq_pure_bind]
  | reply h =>
    have hread : Reads (do
        let xid ← Unmarshall.unpack
        return Header.reply ⟨xid, ← Unmarshall.unpack⟩) (encodeHeader (.reply h)) (.reply h) :=
      (reads_shrInt h.xid).bind ((reads_shrInt h.ret).map _)
    refine ⟨_, ?_, hread⟩
    simp only [unpackHeader, Header.kind, Unmarshall.unpackReplyHeader, unpatch, bind_assoc,
      pure_bind, map_eq_pure_bind]

theorem unpackHeader_spec (h : Header) {u : Unmarshall}
    (hu : Holds { u with ind := rpcSz } (encodeHeader h)) :
    unpackHeader h.kind u = (h, { u with ind := rpcHeaderSz }) := by
  obtain ⟨f,hf,hr⟩ := unpackHeader_eq_unpatch h
  rw [hf]
  exact unpatch_spec hr hu

end DisconnectedYfs.RPC
