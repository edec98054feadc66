import DisconnectedYfs.TraceSystem
import DisconnectedYfs.RPCWireFormat

/-! How the buffer of a message grows. Whatever is written to it, and wherever a header is packed,
the buffer has room, is at most twice as long as what it holds, and keeps what was written. -/
namespace DisconnectedYfs.RPC
open TraceSystem

/-- What can be done to a `marshall`. -/
inductive MarshallOp where
  | rawbyte (x : UInt8)
  | rawbytes (p : Bytes)
  | shl (v : Value)
  | header (h : Header)

namespace MarshallOp

def packing : MarshallOp → Packing Unit
  | rawbyte x => Marshall.rawbyte x
  | rawbytes p => Marshall.rawbytes p
  | shl v => v.1.shl v.2
  | header h => h.pack

/-- What is appended. -/
def bytes : MarshallOp → Bytes
  | rawbyte x => [x]
  | rawbytes p => p
  | shl v => v.1.encode v.2
  | header _ => []

def step (m : Marshall) (op : MarshallOp) : Option Marshall := (op.packing m).map Prod.snd

end MarshallOp

/-- `size()` after these operations. -/
def sizeAfter (ops : List MarshallOp) : ℕ := rpcHeaderSz+(ops.flatMap MarshallOp.bytes).length

/-- The buffer grows only when it is full, to at most twice what it then holds. -/
def Doubles (f : Packing Unit) : Prop :=
  ∀ m m', f m = some ((), m') → m.ind ≤ m'.ind ∧ (m'.capa = m.capa ∨ m'.capa ≤ 2*m'.ind)

/-- The buffer holds what has been written behind the header area. -/
structure Filled (bs : Bytes) (m : Marshall) : Prop where
  ind : m.ind = rpcHeaderSz+bs.length
  room : m.ind ≤ m.capa
  large : 1024 ≤ m.capa
  small : m.capa ≤ max 1024 (2*m.ind)
  bytes : slice m.buf rpcHeaderSz bs.length = bs

section
variable {f g : Packing Unit} {m m' : Marshall} {bs : Bytes}

theorem Doubles.seq (hf : Doubles f) (hg : Doubles g) : Doubles (do f; g) := by
  intro m m' h
  obtain ⟨m₁,hm₁,hm'⟩ := seq_some h
  have h₁ := hf _ _ hm₁
  have h₂ := hg _ _ hm'
  omega

theorem Doubles.nil : Doubles (pure ()) := by
  intro m m' h
  cases h
  exact ⟨Nat.le_refl _, Or.inl rfl⟩

theorem Doubles.forM {α : Type} {f : α → Packing Unit} (h : ∀ x, Doubles (f x)) (l : List α) :
    Doubles (l.forM f) := by
  induction l with
  | nil => exact Doubles.nil
  | cons x xs ih => exact (h x).seq ih

theorem store_some {p : Bytes} (h : Marshall.store p m = some ((), m')) :
    m'.ind = m.ind+p.length ∧ m'.capa = m.capa := by
  unfold Marshall.store at h
  split_ifs at h
  cases h
  exact ⟨rfl, rfl⟩

theorem realloc_store_some {p : Bytes} {n : ℕ}
    (h : (Marshall.realloc n >>= fun _ => Marshall.store p) m = some ((), m')) :
    m'.ind = m.ind+p.length ∧ m'.capa = n := by
  change ((Marshall.realloc n m).bind fun q => Marshall.store p q.2) = _ at h
  obtain ⟨q,hq,hs⟩ := Option.bind_eq_some_iff.mp h
  unfold Marshall.realloc at hq
  split_ifs at hq
  cases hq
  exact store_some hs

theorem doubles_rawbyte (x : UInt8) : Doubles (Marshall.rawbyte x) := by
  intro m m' h
  rw [rawbyte_apply] at h
  by_cases hfull : m.ind ≥ m.capa
  · rw [if_pos hfull] at h
    have := realloc_store_some h
    simp only [List.length_singleton] at this
    omega
  · rw [if_neg hfull] at h
    have := store_some h
    omega

/-- The growth by the length is taken only when the length is at least the capacity. -/
theorem doubles_rawbytes (p : Bytes) : Doubles (Marshall.rawbytes p) := by
  intro m m' h
  have hint : ¬ m.ind+p.length ≥ 2^31 := by
    intro hlarge
    have hfail : Marshall.rawbytes p m = none := congrFun (if_pos hlarge) m
    rw [hfail] at h
    cases h
  rw [rawbytes_apply p m hint] at h
  by_cases hfull : m.ind+p.length > m.capa
  · rw [if_pos hfull] at h
    have := realloc_store_some h
    split_ifs at this <;> omega
  · rw [if_neg hfull] at h
    have := store_some h
    omega

theorem doubles_shlUShort (x : UInt16) : Doubles (Marshall.shlUShort x) :=
  (doubles_rawbyte _).seq (doubles_rawbyte _)

theorem doubles_shlUInt (x : UInt32) : Doubles (Marshall.shlUInt x) :=
  (doubles_rawbyte _).seq ((doubles_rawbyte _).seq ((doubles_rawbyte _).seq (doubles_rawbyte _)))

theorem doubles_shlString (s : Bytes) : Doubles (Marshall.shlString s) :=
  (doubles_shlUInt _).seq (doubles_rawbytes s)

theorem doubles_shl (t : Ty) (x : t.Val) : Doubles (t.shl x) := by
  induction t with
  | bool => exact doubles_rawbyte _
  | char => exact doubles_rawbyte _
  | uchar => exact doubles_rawbyte _
  | short => exact doubles_shlUShort _
  | ushort => exact doubles_shlUShort _
  | int => exact doubles_shlUInt _
  | uint => exact doubles_shlUInt _
  | ulonglong => exact (doubles_shlUInt _).seq (doubles_shlUInt _)
  | string => exact doubles_shlString x
  | attr =>
    exact (doubles_shlUInt _).seq ((doubles_shlUInt _).seq ((doubles_shlUInt _).seq
      ((doubles_shlUInt _).seq ((doubles_shlUInt _).seq (doubles_shlString _)))))
  | vector t ih => exact (doubles_shlUInt _).seq (Doubles.forM ih x)
  | map k v ihk ihv =>
    exact (doubles_shlUInt _).seq
      (Doubles.forM (fun y => (ihk y.1).seq (ihv y.2)) (Subtype.val x))

/-- An operator other than the packing of a header. -/
theorem Filled.append (h : Filled bs m) (hf : Doubles f) {p : Bytes} (hw : Writes f p)
    (hsize : rpcHeaderSz+(bs ++ p).length < 2^30) :
    ∃ m', f m = some ((), m') ∧ Filled (bs ++ p) m' ∧ Wrote m p m' := by
  have hind := h.ind
  rw [List.length_append] at hsize
  obtain ⟨m',hm',hwrote⟩ := hw m h.large h.room (by omega)
  have hind' := hwrote.ind
  refine ⟨m', hm', ⟨?_, hwrote.fits, Nat.le_trans h.large hwrote.grown, ?_, ?_⟩, hwrote⟩
  · rw [hind', hind, List.length_append, Nat.add_assoc]
  · have hgrow := hf _ _ hm'
    have := h.small
    omega
  · have hkept : slice m'.buf rpcHeaderSz bs.length = slice m.buf rpcHeaderSz bs.length :=
      slice_congr (fun i _ hi => hwrote.frame i (Or.inl (by omega)))
    rw [List.length_append, slice_add, hkept, h.bytes, ← hind, hwrote.bytes]

theorem doubles_pack (x : Int32) : Doubles (Marshall.pack x) := by
  rw [pack_eq_shlUInt]
  exact doubles_shlUInt _

theorem doubles_fields (h : Header) : Doubles h.fields := by
  cases h with
  | req h =>
    exact (doubles_pack _).seq ((doubles_pack _).seq ((doubles_pack _).seq
      ((doubles_pack _).seq (doubles_pack _))))
  | reply h => exact (doubles_pack _).seq (doubles_pack _)

/-- A header is packed into the area in front, which is always there, so the buffer does not
grow. -/
theorem Filled.pack (h : Filled bs m) (hd : Header) : ∃ m', hd.pack m = some ((), m') ∧
    Filled bs m' ∧ m'.ind = m.ind ∧ ∀ i, rpcHeaderSz ≤ i → m'.buf i = m.buf i := by
  have hle := encodeHeader_length_le hd
  have hhead : rpcHeaderSz = 24 := rfl
  have hlarge := h.large
  obtain ⟨m',hm',hw⟩ := writes_fields hd { m with ind := rpcSz } hlarge
    (show rpcSz ≤ m.capa by omega) (show rpcSz+_ < 2^30 by omega)
  have hind : m'.ind = rpcSz+(encodeHeader hd).length := hw.ind
  have hcapa : m'.capa = m.capa := by
    have hgrown : m.capa ≤ m'.capa := hw.grown
    rcases (doubles_fields hd _ _ hm').2 with hsame | hsmall
    · exact hsame
    · omega
  have hframe : ∀ i, rpcHeaderSz ≤ i → m'.buf i = m.buf i :=
    fun i hi => hw.frame i (Or.inr (Nat.le_trans hle hi))
  refine ⟨{ m' with ind := m.ind }, ?_, ⟨h.ind, ?_, ?_, ?_, ?_⟩, rfl, hframe⟩
  · rw [pack_eq_patch]
    change ((hd.fields { m with ind := rpcSz }).bind
      fun p => some ((), { p.2 with ind := m.ind })) = _
    rw [hm']
    rfl
  · exact hcapa ▸ h.room
  · exact hcapa ▸ h.large
  · exact hcapa ▸ h.small
  · exact (slice_congr (fun i hi _ => hframe i hi)).trans h.bytes

/-- Any operation, as long as the size stays below `2^30`. -/
theorem Filled.step (h : Filled bs m) (op : MarshallOp)
    (hsize : rpcHeaderSz+(bs ++ op.bytes).length < 2^30) :
    ∃ m', op.step m = some m' ∧ Filled (bs ++ op.bytes) m' ∧
      (∀ i, rpcHeaderSz ≤ i → i < m.ind → m'.buf i = m.buf i) ∧
      slice m'.buf m.ind op.bytes.length = op.bytes := by
  have happend : Doubles op.packing → Writes op.packing op.bytes → ∃ m', op.step m = some m' ∧
      Filled (bs ++ op.bytes) m' ∧ (∀ i, rpcHeaderSz ≤ i → i < m.ind → m'.buf i = m.buf i) ∧
      slice m'.buf m.ind op.bytes.length = op.bytes := by
    intro hdoubles hwrites
    obtain ⟨m',hm',hfilled,hwrote⟩ := h.append hdoubles hwrites hsize
    refine ⟨m', ?_, hfilled, fun i _ hi => hwrote.frame i (Or.inl hi), hwrote.bytes⟩
    rw [MarshallOp.step, hm']
    rfl
  cases op with
  | rawbyte x => exact happend (doubles_rawbyte x) (writes_rawbyte x)
  | rawbytes p => exact happend (doubles_rawbytes p) (writes_rawbytes p)
  | shl v => exact happend (doubles_shl v.1 v.2) (writes_shl v.1 v.2)
  | header hd =>
    obtain ⟨m',hm',hfilled,-,hframe⟩ := h.pack hd
    refine ⟨m', ?_, ?_, fun i hi _ => hframe i hi, rfl⟩
    · rw [MarshallOp.step, MarshallOp.packing, hm']
      rfl
    · rw [MarshallOp.bytes, List.append_nil]
      exact hfilled

theorem filled_init (mem : Mem) : Filled [] (Marshall.init mem) :=
  ⟨rfl, show 24 ≤ 1024 by decide, Nat.le_refl 1024, Nat.le_max_left _ _, rfl⟩

theorem filled_run (mem : Mem) {ops : List MarshallOp} (h : sizeAfter ops < 2^30) :
    ∃ m, run MarshallOp.step (Marshall.init mem) ops = some m ∧
      Filled (ops.flatMap MarshallOp.bytes) m := by
  induction ops using List.reverseRecOn with
  | nil => exact ⟨_, rfl, filled_init mem⟩
  | append_singleton ops op ih =>
    unfold sizeAfter at h ih
    rw [List.flatMap_append, List.flatMap_singleton] at h ⊢
    rw [List.length_append] at h
    obtain ⟨m,hm,hfilled⟩ := ih (by omega)
    obtain ⟨m',hm',hfilled',-⟩ := hfilled.step op (by rw [List.length_append]; exact h)
    exact ⟨m', run_snoc.mpr ⟨m, hm, hm'⟩, hfilled'⟩

end

/-- Whatever has been done to a message, the next operation succeeds if the size stays below `2^30`:
it stores below the capacity and the capacity is an `int`. Afterwards the size is at most the
capacity and what was written behind the header area is still there. -/
theorem marshall_growth (mem : Mem) (ops : List MarshallOp) (op : MarshallOp)
    (h : sizeAfter (ops ++ [op]) < 2^30) :
    ∃ m m', run MarshallOp.step (Marshall.init mem) ops = some m ∧ op.step m = some m' ∧
      m'.ind = sizeAfter (ops ++ [op]) ∧ rpcHeaderSz ≤ m'.ind ∧ m'.ind ≤ m'.capa ∧
      m'.capa ≤ max 1024 (2*m'.ind) ∧ m'.capa < 2^31 ∧
      (∀ i, rpcHeaderSz ≤ i → i < m.ind → m'.buf i = m.buf i) ∧
      slice m'.buf m.ind op.bytes.length = op.bytes := by
  have hall : (ops ++ [op]).flatMap MarshallOp.bytes =
    ops.flatMap MarshallOp.bytes ++ op.bytes := by
    rw [List.flatMap_append, List.flatMap_singleton]
  unfold sizeAfter at h ⊢
  rw [hall] at h ⊢
  have hops : sizeAfter ops < 2^30 := by
    rw [List.length_append] at h
    unfold sizeAfter
    omega
  obtain ⟨m,hm,hfilled⟩ := filled_run mem hops
  obtain ⟨m',hm',hfilled',hframe,hbytes⟩ := hfilled.step op h
  have hind := hfilled'.ind
  have hsmall := hfilled'.small
  exact ⟨m, m', hm, hm', hind, by omega, hfilled'.room, hsmall, by omega, hframe, hbytes⟩

/-- A header is packed between two writes, the second of which makes the buffer grow. -/
theorem marshall_growth_here : ∃ m m', run MarshallOp.step (Marshall.init fun _ => 0)
      [.shl ⟨.uint, (7 : UInt32)⟩, .header (.reply ⟨1, 0⟩)] = some m ∧
    (MarshallOp.rawbytes (List.replicate 2000 1)).step m = some m' ∧
    m'.ind = sizeAfter ([.shl ⟨.uint, (7 : UInt32)⟩, .header (.reply ⟨1, 0⟩)] ++
      [.rawbytes (List.replicate 2000 1)]) ∧
    rpcHeaderSz ≤ m'.ind ∧ m'.ind ≤ m'.capa ∧ m'.capa ≤ max 1024 (2*m'.ind) ∧ m'.capa < 2^31 ∧
    (∀ i, rpcHeaderSz ≤ i → i < m.ind → m'.buf i = m.buf i) ∧
    slice m'.buf m.ind (MarshallOp.rawbytes (List.replicate 2000 1)).bytes.length =
      (MarshallOp.rawbytes (List.replicate 2000 1)).bytes := by
  apply marshall_growth
  have hlen : (MarshallOp.rawbytes (List.replicate 2000 1)).bytes.length = 2000 :=
    List.length_replicate
  simp only [sizeAfter, List.flatMap_append, List.flatMap_cons, List.flatMap_nil,
    List.length_append, List.length_nil, hlen]
  decide

end DisconnectedYfs.RPC
