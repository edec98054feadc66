import DisconnectedYfs.RPCWireFormat

/-! Whole messages: what is written into a request or a reply is what the other side reads, and
a receiver that expects fewer values notices. -/
namespace DisconnectedYfs.RPC

/-- A message is built from the values in their order and the header at any point between. -/
def writeMessage (h : Header) (before after : List Value) : Packing Unit := do
  shlAll before
  h.pack
  shlAll after

/-- The receiver unpacks the header and reads variables of the types it expects. -/
def readMessage (kind : HeaderKind) (ts : List Ty) : Unpacking (Header × List Value) := do
  let h ← unpackHeader kind
  let vs ← shrAll ts
  return (h, vs)

/-- The buffer of a message: the header area, whose first bytes are left to the channel, and the
wire forms of all values. -/
structure Message (h : Header) (vs : List Value) (b : Mem) (n : ℕ) : Prop where
  size : n = rpcHeaderSz+(encodeAll vs).length
  header : slice b rpcSz (encodeHeader h).length = encodeHeader h
  values : slice b rpcHeaderSz (encodeAll vs).length = encodeAll vs

theorem Wrote.keeps_slice {m m' : Marshall} {bs : Bytes} (hw : Wrote m bs m') {a n : ℕ}
    (h : a+n ≤ m.ind) : slice m'.buf a n = slice m.buf a n :=
  slice_congr (fun i _ hi => hw.frame i (Or.inl (by omega)))

theorem encodeAll_append (vs ws : List Value) :
    encodeAll (vs ++ ws) = encodeAll vs ++ encodeAll ws := List.flatMap_append

theorem writeMessage_spec (mem : Mem) (h : Header) (before after : List Value)
    (hsz : rpcHeaderSz+(encodeAll (before ++ after)).length < 2^30) :
    ∃ m, writeMessage h before after (Marshall.init mem) = some ((), m) ∧
      Message h (before ++ after) m.buf m.ind := by
  rw [encodeAll_append, List.length_append] at hsz
  have hhead := encodeHeader_length_le h
  have hsmall : rpcHeaderSz ≤ 1024 := by decide
  obtain ⟨m₁,hm₁,hw₁⟩ := writes_shlAll before (Marshall.init mem) (Nat.le_refl _) hsmall
    (show rpcHeaderSz+_ < 2^30 by omega)
  have hi₁ : m₁.ind = rpcHeaderSz+(encodeAll before).length := hw₁.ind
  obtain ⟨m₂,hm₂,hi₂,hc₂,hb₂,hfr₂⟩ := patch_spec (writes_fields h) (m := m₁) hw₁.grown (by omega)
  have hfit : m₂.ind ≤ m₂.capa := by
    rw [hi₂]
    exact Nat.le_trans hw₁.fits hc₂
  obtain ⟨m₃,hm₃,hw₃⟩ := writes_shlAll after m₂ (Nat.le_trans hw₁.grown hc₂) hfit (by omega)
  refine ⟨m₃, ?_, ?_⟩
  · change (shlAll before (Marshall.init mem)).bind
      (fun p => (h.pack p.2).bind (fun q => shlAll after q.2)) = _
    rw [hm₁, Option.bind_some, pack_eq_patch, hm₂, Option.bind_some]
    exact hm₃
  · have hi₃ := hw₃.ind
    have hb₁ : slice m₁.buf rpcHeaderSz (encodeAll before).length = encodeAll before := hw₁.bytes
    refine ⟨?_, ?_, ?_⟩
    · rw [encodeAll_append, List.length_append]
      omega
    · rw [hw₃.keeps_slice (by omega), hb₂]
    · have hsecond := hw₃.bytes
      have hkeep : slice m₂.buf rpcHeaderSz (encodeAll before).length =
          slice m₁.buf rpcHeaderSz (encodeAll before).length :=
        slice_congr (fun i hi _ => hfr₂ i (Or.inr (by omega)))
      rw [hi₂, hi₁] at hsecond
      rw [encodeAll_append, List.length_append, slice_add, hw₃.keeps_slice (by omega), hkeep,
        hb₁, hsecond]

theorem Message.congr {h : Header} {vs : List Value} {b b' : Mem} {n : ℕ}
    (hm : Message h vs b n) (hb : ∀ i, rpcSz ≤ i → i < n → b' i = b i) : Message h vs b' n where
  size := hm.size
  header := by
    have hlen := encodeHeader_length_le h
    have hn := hm.size
    rw [slice_congr (fun i hi hi' => hb i hi (by omega)), hm.header]
  values := by
    have hle : rpcSz ≤ rpcHeaderSz := by decide
    have hn := hm.size
    rw [slice_congr (fun i hi hi' => hb i (by omega) (by omega)), hm.values]

/-- Reading the first values of a message stops right behind them. -/
theorem readMessage_spec {h : Header} (vs : List Value) {ws : List Value} {b : Mem} {n : ℕ}
    (hm : Message h (vs ++ ws) b n) (hn : n < 2^31) :
    readMessage h.kind (vs.map Sigma.fst) { buf := b, sz := n } =
      ((h, vs), { buf := b, sz := n, ind := rpcHeaderSz+(encodeAll vs).length }) := by
  have hsize := hm.size
  have hhead := encodeHeader_length_le h
  have hvals := hm.values
  rw [encodeAll_append, List.length_append] at hsize hvals
  have hh : Holds { buf := b, sz := n, ind := rpcSz } (encodeHeader h) :=
    ⟨rfl, hn, show rpcSz+_ ≤ n by omega, hm.header⟩
  have hv : Holds { buf := b, sz := n, ind := rpcHeaderSz } (encodeAll vs) := by
    refine ⟨rfl, hn, show rpcHeaderSz+_ ≤ n by omega, ?_⟩
    rw [slice_add] at hvals
    exact (List.append_inj hvals (length_slice _ _ _)).1
  have h1 := unpackHeader_spec h (u := { buf := b, sz := n }) hh
  have h2 := reads_shrAll vs _ hv
  have hread : readMessage h.kind (vs.map Sigma.fst) { buf := b, sz := n } =
      (((unpackHeader h.kind { buf := b, sz := n }).1,
        (shrAll (vs.map Sigma.fst) (unpackHeader h.kind { buf := b, sz := n }).2).1),
        (shrAll (vs.map Sigma.fst) (unpackHeader h.kind { buf := b, sz := n }).2).2) := rfl
  rw [hread, h1, h2]

/-- Marshalling and unmarshalling are inverse: wherever the header is packed among the values,
the receiver of the buffer, whose size field the channel may have filled, gets the header and the
values and is done; if it reads fewer variables, it is not. -/
theorem message_round_trip (mem : Mem) (h : Header) (before after : List Value)
    (hsz : rpcHeaderSz+(encodeAll (before ++ after)).length < 2^30) :
    ∃ m, writeMessage h before after (Marshall.init mem) = some ((), m) ∧
      ∀ b : Mem, (∀ i, rpcSz ≤ i → i < m.ind → b i = m.buf i) →
        (∃ u, readMessage h.kind ((before ++ after).map Sigma.fst) { buf := b, sz := m.ind } =
          ((h, before ++ after), u) ∧ u.okdone = true) ∧
        ∀ k, k < (before ++ after).length →
          (readMessage h.kind (((before ++ after).take k).map Sigma.fst)
            { buf := b, sz := m.ind }).2.okdone = false := by
  obtain ⟨m,hm,hmsg⟩ := writeMessage_spec mem h before after hsz
  refine ⟨m, hm, ?_⟩
  intro b hb
  have hmsg' := hmsg.congr hb
  generalize before ++ after = vs at *
  have hsize := hmsg'.size
  have hint : m.ind < 2^31 := by omega
  refine ⟨?_, ?_⟩
  · have hall : Message h (vs ++ []) b m.ind := by
      rw [List.append_nil]
      exact hmsg'
    refine ⟨_, readMessage_spec _ hall hint, ?_⟩
    simp [Unmarshall.okdone, hsize]
  · intro k hk
    -- the values left unread have a wire form of at least one byte
    have hsplit : Message h (vs.take k ++ vs.drop k) b m.ind := by
      rw [List.take_append_drop]
      exact hmsg'
    have hrest : 0 < (encodeAll (vs.drop k)).length := by
      rw [List.drop_eq_getElem_cons hk]
      have hpos := encode_length_pos vs[k].1 vs[k].2
      simp only [encodeAll, List.flatMap_cons, List.length_append]
      omega
    have hlen := hsplit.size
    rw [encodeAll_append, List.length_append] at hlen
    rw [readMessage_spec _ hsplit hint]
    simp only [Unmarshall.okdone, Bool.true_and, beq_eq_false_iff_ne]
    omega

theorem message_round_trip_attr :
    let vs : List Value := [⟨.attr, ⟨1, 2, 3, 4, 5, [0x66]⟩⟩]
    rpcHeaderSz+(encodeAll ([] ++ vs)).length < 2^30 ∧
    ∃ m, writeMessage (.req ⟨7, 0x6001, 3, 9, 6⟩) [] vs (Marshall.init (fun _ => 0)) =
      some ((), m) ∧
      ∀ b : Mem, (∀ i, rpcSz ≤ i → i < m.ind → b i = m.buf i) →
        (∃ u, readMessage .req [.attr] { buf := b, sz := m.ind } =
          ((.req ⟨7, 0x6001, 3, 9, 6⟩, vs), u) ∧ u.okdone = true) ∧
        ∀ k, k < vs.length →
          (readMessage .req ((vs.take k).map Sigma.fst) { buf := b, sz := m.ind }).2.okdone
            = false :=
  ⟨by decide +kernel, message_round_trip (fun _ => 0) (.req ⟨7, 0x6001, 3, 9, 6⟩) [] _
    (by decide +kernel)⟩

end DisconnectedYfs.RPC
