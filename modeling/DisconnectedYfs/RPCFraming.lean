import DisconnectedYfs.RPCConnection
import DisconnectedYfs.TraceSystem

/-! PDU framing: whatever the kernel makes of the reads and writes, the receiver accepts the PDUs
that were sent, whole and in order. The sender keeps the stream a prefix of the frames it was
given; the receiver keeps what it has read equal to the accepted frames and a part of the next. -/
namespace DisconnectedYfs.RPC
open TraceSystem

/-- A PDU as it travels: its size in the first four bytes. -/
def frame (p : Pdu) : Bytes := be32 (UInt32.ofNat p.bytes.length) ++ p.bytes.drop rpcSz

def frames (sent : List Pdu) : List Bytes := sent.map frame

/-- All bytes of the PDUs sent, in their order. -/
def stream (sent : List Pdu) : Bytes := (frames sent).flatten

theorem frame_length (p : Pdu) : (frame p).length = p.bytes.length := by
  have h := p.header
  simp only [frame, be32, rpcHeaderSz, rpcSz, List.length_append, List.length_drop,
    List.length_cons, List.length_nil] at h ⊢
  omega

theorem stream_snoc (sent : List Pdu) (p : Pdu) :
    stream (sent ++ [p]) = stream sent ++ frame p := by
  simp [stream, frames]

theorem stream_prefix_snoc (sent : List Pdu) (p : Pdu) :
    stream sent <+: stream (sent ++ [p]) := by
  rw [stream_snoc]
  exact List.prefix_append _ _

/-! The sender. -/

/-- What `wpdu_` says about the stream while the connection is alive: either all PDUs are out, or
the last one is out up to `solong`. -/
inductive Writing (sent : List Pdu) (wire : Bytes) : Charbuf → Prop where
  | idle (h : wire = stream sent) : Writing sent wire {}
  | busy {init : List Pdu} {p : Pdu} {b : Bytes} {s : ℕ} (hsent : sent = init ++ [p])
      (hs : s ≤ p.bytes.length) (hb : b.drop rpcSz = p.bytes.drop rpcSz)
      (hframe : 0 < s → b = frame p) (hwire : wire = stream init ++ (frame p).take s) :
      Writing sent wire { buf := some b, sz := p.bytes.length, solong := s }

theorem Writing.flows {sent : List Pdu} {wire : Bytes} {q : Charbuf} (h : Writing sent wire q) :
    wire <+: stream sent := by
  cases h with
  | idle h => exact h ▸ List.prefix_refl _
  | busy hsent _ _ _ hwire =>
    rw [hwire, hsent, stream_snoc]
    exact (List.prefix_append_right_inj _).mpr (List.take_prefix _ _)

/-- A completed PDU is out as a whole. -/
theorem Writing.complete {sent : List Pdu} {wire : Bytes} {q : Charbuf} (h : Writing sent wire q)
    (hq : q.solong < 0 ∨ q.sz ≤ q.solong) : wire = stream sent := by
  cases h with
  | idle h => exact h
  | @busy init p b s hsent hs _ _ hwire =>
    have hs' : s = p.bytes.length := by
      rcases hq with hq | hq
      · change (s : ℤ) < 0 at hq
        omega
      · change (p.bytes.length : ℤ) ≤ s at hq
        omega
    rw [hwire, hsent, stream_snoc, hs', ← frame_length, List.take_length]

structure SenderInv (k : Connection) (sent : List Pdu) (wire : Bytes) : Prop where
  flows : wire <+: stream sent
  removing : ∀ t, k.pc t = some .removing → k.dead = true
  writing : k.dead = false → Writing sent wire k.wpdu

/-- One `write` moves `wpdu_` and the stream on together. -/
theorem writepdu_spec {k k' : Connection} {w : WriteResult} {out : Bytes} {ok : Bool}
    {sent : List Pdu} {wire : Bytes} (hw : Writing sent wire k.wpdu)
    (h : k.writepdu w = some (k', out, ok)) :
    k'.pc = k.pc ∧ k'.dead = k.dead ∧ (ok = true → Writing sent (wire ++ out) k'.wpdu) ∧
      (ok = false → out = []) := by
  obtain ⟨dead,wpdu,rpdu,pc⟩ := k
  unfold Connection.writepdu at h
  cases hw with
  | idle hwire =>
    simp only [Int.lt_irrefl, if_false, if_true, Option.some.injEq, Prod.mk.injEq] at h
    obtain ⟨rfl,rfl,rfl⟩ := h
    refine ⟨rfl, rfl, fun _ => ?_, fun h => by contradiction⟩
    rw [List.append_nil]
    exact .idle hwire
  | @busy init p b s hsent hs hb hframe hwire =>
    have hneg : ¬ (s : ℤ) < 0 := by omega
    by_cases hfull : (s : ℤ) = p.bytes.length
    · dsimp only at h
      rw [if_neg hneg, if_pos hfull] at h
      obtain ⟨rfl,rfl,rfl⟩ := Option.some.inj h
      refine ⟨rfl, rfl, fun _ => ?_, fun h => by contradiction⟩
      rw [List.append_nil]
      exact .busy hsent hs hb hframe hwire
    · -- the buffer is the frame from here on
      have hbuf : (if (s : ℤ) = 0 then be32 (UInt32.ofNat (p.bytes.length : ℤ).toNat) ++
        b.drop rpcSz
          else b) = frame p := by
        split_ifs with hz
        · rw [hb, Int.toNat_natCast]
          rfl
        · exact hframe (by omega)
      have hdrop : (frame p).drop rpcSz = p.bytes.drop rpcSz := rfl
      simp only [hneg, hfull, if_false, Option.getD_some, hbuf] at h
      cases w with
      | failed again =>
        cases again with
        | true =>
          simp only [if_true, Option.some.injEq, Prod.mk.injEq] at h
          obtain ⟨rfl,rfl,rfl⟩ := h
          refine ⟨rfl, rfl, fun _ => ?_, fun h => by contradiction⟩
          rw [List.append_nil]
          exact .busy hsent hs hdrop (fun _ => rfl) hwire
        | false =>
          simp only [Bool.false_eq_true, if_false, Option.some.injEq, Prod.mk.injEq] at h
          obtain ⟨rfl,rfl,rfl⟩ := h
          exact ⟨rfl, rfl, fun h => by contradiction, fun _ => rfl⟩
      | wrote n =>
        dsimp only at h
        split_ifs at h with hn
        obtain ⟨rfl,rfl,rfl⟩ := Option.some.inj h
        refine ⟨rfl, rfl, fun _ => ?_, fun h => by contradiction⟩
        have hsn : ((s : ℤ)+n) = ((s+n : ℕ) : ℤ) := by omega
        rw [hsn]
        refine .busy hsent (by omega) hdrop (fun _ => rfl) ?_
        rw [hwire, List.append_assoc, Int.toNat_natCast, ← List.take_add]

theorem SenderInv.init : SenderInv {} [] [] where
  flows := List.prefix_refl _
  removing _ h := by cases h
  writing _ := .idle rfl

/-- Threads that are not between a failed write and the end of `send` do not matter. -/
theorem SenderInv.update_pc {k : Connection} {sent : List Pdu} {wire : Bytes}
    (h : SenderInv k sent wire) (t : ℕ) {x : Option SendPc} (hx : x ≠ some .removing) :
    SenderInv { k with pc := Function.update k.pc t x } sent wire where
  flows := h.flows
  removing u hu := by
    by_cases htu : u = t
    · subst htu
      change Function.update k.pc u x u = _ at hu
      rw [Function.update_self] at hu
      exact absurd hu hx
    · change Function.update k.pc t x u = _ at hu
      rw [Function.update_of_ne htu] at hu
      exact h.removing u hu
  writing := h.writing

theorem SenderInv.finish {k : Connection} {sent : List Pdu} {wire : Bytes}
    (h : SenderInv k sent wire) (t : ℕ) (hout : k.dead = false → wire = stream sent) :
    SenderInv (k.finish t) sent wire := by
  have h' := h.update_pc t (x := none) (by simp)
  exact ⟨h'.flows, h'.removing, fun hd => .idle (hout hd)⟩

/-- A dead connection writes nothing, so only the stream so far counts. -/
theorem SenderInv.of_dead {k : Connection} {sent : List Pdu} {wire : Bytes}
    (hflows : wire <+: stream sent) (hdead : k.dead = true) : SenderInv k sent wire where
  flows := hflows
  removing _ _ := hdead
  writing h := by rw [hdead] at h; contradiction

theorem send_keeps {k k' : Connection} {t : ℕ} {p : Pdu} {w : WriteResult} {out : Bytes}
    {took : Bool} {sent : List Pdu} {wire : Bytes} (hk : SenderInv k sent wire)
    (h : k.send t p w = some (k', out, took)) :
    SenderInv k' (if took then sent ++ [p] else sent) (wire ++ out) := by
  unfold Connection.send at h
  split_ifs at h with hdead hbusy
  · obtain ⟨rfl,rfl,rfl⟩ := Option.some.inj h
    rw [List.append_nil]
    exact hk.update_pc t (by simp)
  · obtain ⟨rfl,rfl,rfl⟩ := Option.some.inj h
    rw [List.append_nil]
    exact hk.update_pc t (by simp)
  · have halive : k.dead = false := Bool.not_eq_true _ ▸ hdead
    -- nobody owns `wpdu_`, so everything sent before is out
    have hwire : wire = stream sent := by
      have hw := hk.writing halive
      generalize hq : k.wpdu = q at hw hbusy
      cases hw with
      | idle h => exact h
      | busy => simp at hbusy
    have hstart : Writing (sent ++ [p]) wire
        { buf := some p.bytes, sz := p.bytes.length, solong := (0 : ℕ) } := by
      refine .busy rfl (Nat.zero_le _) rfl (fun h => absurd h (Nat.lt_irrefl 0)) ?_
      rw [List.take_zero, List.append_nil, hwire]
    obtain ⟨⟨k₁,out₁,ok⟩,hw,hres⟩ := Option.map_eq_some_iff.mp h
    obtain ⟨hpc,hdead₁,hok,hfail⟩ := writepdu_spec hstart hw
    have hpre : wire <+: stream (sent ++ [p]) := hwire ▸ stream_prefix_snoc sent p
    have hrem : ∀ u, k₁.pc u = some .removing → k₁.dead = true := by
      intro u hu
      rw [hpc] at hu
      rw [hdead₁]
      exact hk.removing u hu
    cases ok with
    | false =>
      obtain ⟨rfl,rfl,rfl⟩ := hres
      rw [hfail rfl, List.append_nil]
      exact SenderInv.of_dead hpre rfl
    | true =>
      have hk₁ : SenderInv k₁ (sent ++ [p]) (wire ++ out₁) :=
        ⟨(hok rfl).flows, hrem, fun _ => hok rfl⟩
      simp only [Bool.not_true, Bool.false_eq_true, if_false] at hres
      split_ifs at hres with hfull
      · obtain ⟨rfl,rfl,rfl⟩ := hres
        exact hk₁.finish t (fun _ => (hok rfl).complete (Or.inr (by omega)))
      · obtain ⟨rfl,rfl,rfl⟩ := hres
        exact hk₁.update_pc t (by simp)

theorem writeCb_keeps {k k' : Connection} {w : WriteResult} {out : Bytes} {sent : List Pdu}
    {wire : Bytes} (hk : SenderInv k sent wire) (h : k.writeCb w = some (k', out)) :
    SenderInv k' sent (wire ++ out) := by
  unfold Connection.writeCb at h
  split_ifs at h with hdead hsz
  · obtain ⟨rfl,rfl⟩ := Option.some.inj h
    rw [List.append_nil]
    exact hk
  · have halive : k.dead = false := Bool.not_eq_true _ ▸ hdead
    obtain ⟨⟨k₁,out₁,ok⟩,hw,hres⟩ := Option.map_eq_some_iff.mp h
    obtain ⟨hpc,hdead₁,hok,hfail⟩ := writepdu_spec (hk.writing halive) hw
    obtain ⟨rfl,rfl⟩ := hres
    cases ok with
    | false =>
      rw [hfail rfl, List.append_nil]
      exact SenderInv.of_dead hk.flows rfl
    | true =>
      refine ⟨(hok rfl).flows, fun u hu => ?_, fun _ => hok rfl⟩
      change k₁.pc u = _ at hu
      change k₁.dead = true
      rw [hpc] at hu
      rw [hdead₁]
      exact hk.removing u hu

theorem wakeComplete_keeps {k : Connection} {sent : List Pdu} {wire : Bytes}
    (hk : SenderInv k sent wire) (t : ℕ) : SenderInv (k.wakeComplete t) sent wire := by
  unfold Connection.wakeComplete
  split_ifs with h
  · exact hk
  · apply hk.finish t
    intro halive
    apply (hk.writing halive).complete
    simp only [halive, Bool.not_false, true_and, not_and, ge_iff_le] at h
    omega

/-! The receiver. -/

theorem ntohl_be32 (n : ℕ) (h : n < 2^31) (rest : Bytes) :
    Connection.ntohl (be32 (UInt32.ofNat n) ++ rest) = n := by
  change (((UInt32.ofNat n >>> 24).toUInt8.toUInt32 <<< 24 |||
    (UInt32.ofNat n >>> 16).toUInt8.toUInt32 <<< 16 |||
    (UInt32.ofNat n >>> 8).toUInt8.toUInt32 <<< 8 |||
    (UInt32.ofNat n).toUInt8.toUInt32).toInt32).toInt = n
  rw [join32]
  have hn : (UInt32.ofNat n).toNat = n := UInt32.toNat_ofNat_of_lt (show n < 2^32 by omega)
  change (UInt32.ofNat n).toBitVec.toInt = n
  rw [BitVec.toInt_eq_toNat_of_lt]
  · exact congrArg Int.ofNat hn
  · change 2*(UInt32.ofNat n).toNat < 2^32
    omega

/-- What `rpdu_` says about the bytes read since the last accepted PDU: none, or the size and a
part of the first frame that is still to come. -/
inductive Reading (rest : List Bytes) : Charbuf → Bytes → Prop where
  | idle : Reading rest {} []
  | busy {f : Bytes} {rest' : List Bytes} {part : Bytes} (hrest : rest = f :: rest')
      (hsize : rpcSz ≤ part.length) (hle : part.length ≤ f.length) (hint : f.length < 2^31) :
      Reading rest { buf := some part, sz := f.length, solong := part.length } part

/-- The accepted PDUs are the first frames, and an alive connection has read them and a part of
the next. -/
structure ReceiverInv (k : Connection) (sent : List Pdu) (got : Bytes)
    (accepted : List (Bytes × ℤ)) : Prop where
  split : ∃ done rest, frames sent = done ++ rest ∧
    accepted = done.map (fun f => (f, (f.length : ℤ))) ∧
    (k.dead = false → ∃ part, Reading rest k.rpdu part ∧ got = done.flatten ++ part)

theorem ReceiverInv.init : ReceiverInv {} [] [] [] :=
  ⟨[], [], rfl, rfl, fun _ => ⟨[], .idle, rfl⟩⟩

theorem Reading.append {rest : List Bytes} {q : Charbuf} {part : Bytes} (h : Reading rest q part)
    (f : Bytes) : Reading (rest ++ [f]) q part := by
  cases h with
  | idle => exact .idle
  | busy hrest hsize hle hint => exact .busy (by rw [hrest]; rfl) hsize hle hint

/-- More PDUs may be sent meanwhile. -/
theorem ReceiverInv.snoc {k : Connection} {sent : List Pdu} {got : Bytes}
    {accepted : List (Bytes × ℤ)} (h : ReceiverInv k sent got accepted) (p : Pdu) :
    ReceiverInv k (sent ++ [p]) got accepted := by
  obtain ⟨done,rest,hfr,hacc,hread⟩ := h.split
  refine ⟨done, rest ++ [frame p], ?_, hacc, fun hd => ?_⟩
  · rw [← List.append_assoc, ← hfr]
    simp [frames]
  · obtain ⟨part,hpart,hgot⟩ := hread hd
    exact ⟨part, hpart.append _, hgot⟩

/-- The stream behind the accepted frames starts with the first of the others. -/
theorem prefix_of_frames {sent : List Pdu} {done rest : List Bytes} {part : Bytes}
    (hfr : frames sent = done ++ rest) (h : done.flatten ++ part <+: stream sent) :
    part <+: rest.flatten := by
  rw [stream, hfr, List.flatten_append] at h
  exact (List.prefix_append_right_inj _).mp h

theorem mem_frames {sent : List Pdu} {done rest : List Bytes} {f : Bytes}
    (hfr : frames sent = done ++ f :: rest) : ∃ p : Pdu, f = frame p := by
  have hf : f ∈ frames sent := by
    rw [hfr]
    exact List.mem_append_right _ List.mem_cons_self
  obtain ⟨p,_,hp⟩ := List.mem_map.mp hf
  exact ⟨p, hp.symm⟩

/-- A part as long as the frame is the frame. -/
theorem eq_frame_of_length {f part : Bytes} {rest : List Bytes}
    (h : part <+: (f :: rest).flatten) (hlen : part.length = f.length) : part = f := by
  rw [List.flatten_cons] at h
  have h1 := List.prefix_iff_eq_take.mp h
  rw [h1, hlen, List.take_left]

/-- The four bytes that begin a PDU are the size of the next frame. -/
theorem size_of_next {sent : List Pdu} {done rest : List Bytes} {sz : Bytes}
    (hfr : frames sent = done ++ rest) (h : done.flatten ++ sz <+: stream sent)
    (hlen : sz.length = rpcSz) :
    ∃ f rest', rest = f :: rest' ∧ f.length < 2^31 ∧ rpcSz ≤ f.length ∧
      Connection.ntohl sz = f.length := by
  have hpre := prefix_of_frames hfr h
  cases rest with
  | nil =>
    rw [List.flatten_nil, List.prefix_nil] at hpre
    rw [hpre] at hlen
    contradiction
  | cons f rest' =>
    obtain ⟨p,hp⟩ := mem_frames hfr
    have hl := frame_length p
    have hh := p.header
    have hi := p.int
    have h4 : rpcSz ≤ rpcHeaderSz := by decide
    refine ⟨f, rest', rfl, by rw [hp]; omega, by rw [hp]; omega, ?_⟩
    rw [List.flatten_cons] at hpre
    have hsz : sz = be32 (UInt32.ofNat p.bytes.length) := by
      have h1 := List.prefix_iff_eq_take.mp hpre
      rw [h1, hlen, hp]
      rfl
    have hz := ntohl_be32 p.bytes.length hi []
    rw [List.append_nil] at hz
    rw [hsz, hz, hp, hl]

/-- A read into the buffer takes at most what the frame still lacks. -/
theorem readBody_spec {k k' : Connection} {avail : Bytes} {r : ReadResult} {n : ℕ} {ok : Bool}
    {rest : List Bytes} {part : Bytes} (hq : Reading rest k.rpdu part)
    (hbuf : k.rpdu.buf.isSome = true) (h : k.readBody avail r = some (k', n, ok)) :
    k'.dead = k.dead ∧ n ≤ avail.length ∧
      (ok = true → Reading rest k'.rpdu (part ++ avail.take n)) ∧
      (ok = false → k'.rpdu.buf = none) := by
  have hgive : ∀ again : Bool,
      (if again then some (k, 0, true) else some ({ k with rpdu := {} }, 0, false)) =
        some (k', n, ok) →
      k'.dead = k.dead ∧ n ≤ avail.length ∧
        (ok = true → Reading rest k'.rpdu (part ++ avail.take n)) ∧
        (ok = false → k'.rpdu.buf = none) := by
    intro again h
    cases again with
    | true =>
      obtain ⟨rfl,rfl,rfl⟩ := Option.some.inj h
      refine ⟨rfl, Nat.zero_le _, fun _ => ?_, fun h => by contradiction⟩
      rw [List.take_zero, List.append_nil]
      exact hq
    | false =>
      obtain ⟨rfl,rfl,rfl⟩ := Option.some.inj h
      exact ⟨rfl, Nat.zero_le _, fun h => by contradiction, fun _ => rfl⟩
  cases r with
  | eof again => exact hgive again h
  | failed again => exact hgive again h
  | data m =>
    obtain ⟨dead,wpdu,rpdu,pc⟩ := k
    cases hq with
    | idle => simp at hbuf
    | @busy f rest' _ hrest hsize hle hint =>
      unfold Connection.readBody at h
      dsimp only at h
      split_ifs at h with hcan
      obtain ⟨rfl,rfl,rfl⟩ := Option.some.inj h
      obtain ⟨-,hm,hwant⟩ := of_decide_eq_true hcan
      have hmod : ((f.length : ℤ)-part.length) % 2^64 = (f.length : ℤ)-part.length :=
        Int.emod_eq_of_lt (by omega) (by omega)
      rw [hmod] at hwant
      refine ⟨rfl, hm, fun _ => ?_, fun h => by contradiction⟩
      have hlen : (part ++ avail.take n).length = part.length+n := by
        rw [List.length_append, List.length_take, Nat.min_eq_left hm]
      have hsol : ((part.length : ℤ)+n) = ((part ++ avail.take n).length : ℤ) := by
        rw [hlen]
        omega
      rw [Option.getD_some, hsol]
      exact .busy hrest (by omega) (by omega) hint

theorem readpdu_spec {k k' : Connection} {avail : Bytes} {r₁ r₂ : ReadResult} {n : ℕ} {ok : Bool}
    {sent : List Pdu} {done rest : List Bytes} {part : Bytes} (hfr : frames sent = done ++ rest)
    (hq : Reading rest k.rpdu part) (hpre : done.flatten ++ part ++ avail <+: stream sent)
    (h : k.readpdu avail r₁ r₂ = some (k', n, ok)) :
    k'.dead = k.dead ∧ n ≤ avail.length ∧
      (ok = true → Reading rest k'.rpdu (part ++ avail.take n)) ∧
      (ok = false → k'.rpdu.buf = none) := by
  unfold Connection.readpdu at h
  by_cases hsz : k.rpdu.sz = 0
  · rw [if_pos hsz] at h
    -- a new PDU begins, so nothing of it was read
    have hidle : k.rpdu = {} ∧ part = [] := by
      generalize hr : k.rpdu = q at hq hsz
      cases hq with
      | idle => exact ⟨rfl, rfl⟩
      | busy hrest hsize hle hint =>
        have h4 : rpcSz = 4 := rfl
        change ((List.length _ : ℕ) : ℤ) = 0 at hsz
        omega
    obtain ⟨hk,rfl⟩ := hidle
    have hnone : k.rpdu.buf = none := by rw [hk]
    cases r₁ with
    | eof again =>
      obtain ⟨rfl,rfl,rfl⟩ := Option.some.inj h
      exact ⟨rfl, Nat.zero_le _, fun h => by contradiction, fun _ => hnone⟩
    | failed again =>
      cases again with
      | true => cases h
      | false =>
        obtain ⟨rfl,rfl,rfl⟩ := Option.some.inj h
        exact ⟨rfl, Nat.zero_le _, fun h => by contradiction, fun _ => hnone⟩
    | data m =>
      simp only [hnone, Option.isSome_none, Bool.false_eq_true, if_false] at h
      split_ifs at h with hcan hm hbig halloc
      · obtain ⟨rfl,rfl,rfl⟩ := Option.some.inj h
        obtain ⟨-,hm',-⟩ := of_decide_eq_true hcan
        exact ⟨rfl, hm', fun h => by contradiction, fun _ => hnone⟩
      · obtain ⟨rfl,rfl,rfl⟩ := Option.some.inj h
        obtain ⟨-,hm',-⟩ := of_decide_eq_true hcan
        exact ⟨rfl, hm', fun h => by contradiction, fun _ => hnone⟩
      · obtain ⟨-,hm',-⟩ := of_decide_eq_true hcan
        have hm4 : m = rpcSz := not_not.mp hm
        subst hm4
        have hlen : (avail.take rpcSz).length = rpcSz := by
          rw [List.length_take, Nat.min_eq_left hm']
        have hsize : done.flatten ++ avail.take rpcSz <+: stream sent := by
          rw [List.append_nil] at hpre
          exact ((List.prefix_append_right_inj _).mpr (List.take_prefix _ _)).trans hpre
        obtain ⟨f,rest',hrest,hint,h4,hnt⟩ := size_of_next hfr hsize hlen
        have hq' : Reading rest
            { buf := some (avail.take rpcSz), sz := Connection.ntohl (avail.take rpcSz),
              solong := (rpcSz : ℤ) } (avail.take rpcSz) := by
          have hb := Reading.busy hrest (Nat.le_of_eq hlen.symm) (by omega) hint
          rw [hnt]
          rw [hlen] at hb
          exact hb
        obtain ⟨⟨k₁,j,ok₁⟩,hbody,hres⟩ := Option.map_eq_some_iff.mp h
        obtain ⟨rfl,rfl,rfl⟩ := hres
        obtain ⟨hdead,hj,hok,hfail⟩ := readBody_spec (k := { k with rpdu := _ }) hq' rfl hbody
        rw [List.length_drop] at hj
        have hsum : rpcSz+j ≤ avail.length := by omega
        refine ⟨hdead, hsum, fun ht => ?_, hfail⟩
        rw [List.nil_append, List.take_add]
        exact hok ht
  · rw [if_neg hsz] at h
    refine readBody_spec hq ?_ h
    generalize hr : k.rpdu = q at hq hsz
    cases hq with
    | idle => exact absurd rfl hsz
    | busy => rfl

theorem readCb_keeps {k k' : Connection} {avail : Bytes} {r₁ r₂ : ReadResult} {accept : Bool}
    {n : ℕ} {res : Option (Bytes × ℤ)} {sent : List Pdu} {got : Bytes}
    {accepted : List (Bytes × ℤ)} (hk : ReceiverInv k sent got accepted)
    (hpre : got ++ avail <+: stream sent) (h : k.readCb avail r₁ r₂ accept = some (k', n, res)) :
    n ≤ avail.length ∧ ReceiverInv k' sent (got ++ avail.take n) (accepted ++ res.toList) := by
  obtain ⟨done,rest,hfr,hacc,hread⟩ := hk.split
  unfold Connection.readCb at h
  by_cases hdead : k.dead = true
  · rw [if_pos hdead] at h
    obtain ⟨rfl,rfl,rfl⟩ := Option.some.inj h
    refine ⟨Nat.zero_le _, done, rest, hfr, by simpa using hacc, fun halive => ?_⟩
    rw [hdead] at halive
    contradiction
  · rw [if_neg hdead] at h
    have halive : k.dead = false := Bool.not_eq_true _ ▸ hdead
    obtain ⟨part,hpart,hgot⟩ := hread halive
    obtain ⟨⟨k₁,m,succ⟩,hpdu,hres⟩ := Option.map_eq_some_iff.mp h
    have hspec : k₁.dead = k.dead ∧ m ≤ avail.length ∧
        (succ = true → Reading rest k₁.rpdu (part ++ avail.take m)) ∧
        (succ = false → k₁.rpdu.buf = none) := by
      split_ifs at hpdu with hmore
      · exact readpdu_spec hfr hpart (hgot ▸ hpre) hpdu
      · obtain ⟨rfl,rfl,rfl⟩ := Option.some.inj hpdu
        refine ⟨rfl, Nat.zero_le _, fun _ => ?_, fun h => by contradiction⟩
        rw [List.take_zero, List.append_nil]
        exact hpart
    obtain ⟨hdead₁,hm,hok,hfail⟩ := hspec
    cases succ with
    | false =>
      simp only [Bool.false_eq_true, if_false, hfail rfl] at hres
      obtain ⟨rfl,rfl,rfl⟩ := hres
      exact ⟨hm, done, rest, hfr, by simpa using hacc, fun h => by contradiction⟩
    | true =>
      have hread₁ := hok rfl
      have hgot₁ : got ++ avail.take m = done.flatten ++ (part ++ avail.take m) := by
        rw [hgot, List.append_assoc]
      have hstay : ReceiverInv k₁ sent (got ++ avail.take m) accepted :=
        ⟨done, rest, hfr, hacc, fun _ => ⟨_, hread₁, hgot₁⟩⟩
      have hpre₁ : done.flatten ++ (part ++ avail.take m) <+: stream sent := by
        rw [← hgot₁]
        exact ((List.prefix_append_right_inj _).mpr (List.take_prefix _ _)).trans hpre
      simp only [if_true] at hres
      generalize hq : k₁.rpdu = q at hres hread₁
      generalize hmore : part ++ avail.take m = part₁ at hread₁ hgot₁ hpre₁
      cases hread₁ with
      | idle =>
        obtain ⟨rfl,rfl,rfl⟩ := hres
        exact ⟨hm, by simpa using hstay⟩
      | @busy f rest' _ hrest hsize hle hint =>
        dsimp only at hres
        split_ifs at hres with hfull
        · obtain ⟨rfl,rfl,rfl⟩ := hres
          have hf : part₁ = f :=
            eq_frame_of_length (hrest ▸ prefix_of_frames hfr hpre₁) (by omega)
          refine ⟨hm, done ++ [f], rest', ?_, ?_, fun _ => ⟨[], .idle, ?_⟩⟩
          · rw [hfr, hrest, List.append_assoc]
            rfl
          · rw [hacc, hf]
            simp
          · rw [hgot₁, hf]
            simp
        · obtain ⟨rfl,rfl,rfl⟩ := hres
          exact ⟨hm, by simpa using hstay⟩

/-! Both ends together. -/

structure LinkInv (l : Link) : Prop where
  sender : SenderInv l.sender l.sent l.wire
  taken : l.taken ≤ l.wire.length
  receiver : ReceiverInv l.receiver l.sent (l.wire.take l.taken) l.accepted

theorem LinkInv.init : LinkInv {} := ⟨SenderInv.init, Nat.le_refl 0, ReceiverInv.init⟩

/-- The receiver does not see what is written until it reads. -/
theorem LinkInv.write {l : Link} (hl : LinkInv l) {k : Connection} {sent : List Pdu} {out : Bytes}
    (hk : SenderInv k sent (l.wire ++ out))
    (hr : ReceiverInv l.receiver sent (l.wire.take l.taken) l.accepted) :
    LinkInv { l with sender := k, wire := l.wire ++ out, sent := sent } where
  sender := hk
  taken := by
    rw [List.length_append]
    exact Nat.le_trans hl.taken (Nat.le_add_right _ _)
  receiver := by
    change ReceiverInv l.receiver sent ((l.wire ++ out).take l.taken) l.accepted
    rw [List.take_append_of_le_length hl.taken]
    exact hr

theorem doSend_keeps {l l' : Link} {t : ℕ} {p : Pdu} {w : WriteResult} (hl : LinkInv l)
    (h : l.doSend t p w = some l') : LinkInv l' := by
  obtain ⟨⟨k,out,took⟩,hsend,rfl⟩ := Option.map_eq_some_iff.mp h
  apply hl.write (send_keeps hl.sender hsend)
  cases took with
  | true => exact hl.receiver.snoc p
  | false => exact hl.receiver

theorem link_step {l l' : Link} {e : LinkEvent} (hl : LinkInv l) (h : l.step e = some l') :
    LinkInv l' := by
  cases e with
  | send t p w =>
    simp only [Link.step] at h
    split_ifs at h
    exact doSend_keeps hl h
  | wakeSend t w =>
    simp only [Link.step] at h
    split at h
    · exact doSend_keeps hl h
    · contradiction
  | wakeComplete t =>
    simp only [Link.step] at h
    split at h
    · obtain rfl := Option.some.inj h
      exact ⟨wakeComplete_keeps hl.sender t, hl.taken, hl.receiver⟩
    · contradiction
  | removed t =>
    simp only [Link.step] at h
    split at h
    · rename_i hpc
      obtain rfl := Option.some.inj h
      refine ⟨hl.sender.finish t (fun halive => ?_), hl.taken, hl.receiver⟩
      rw [hl.sender.removing t hpc] at halive
      contradiction
    · contradiction
  | writeCb w =>
    obtain ⟨⟨k,out⟩,hcb,rfl⟩ := Option.map_eq_some_iff.mp h
    exact hl.write (writeCb_keeps hl.sender hcb) hl.receiver
  | readCb r₁ r₂ accept =>
    obtain ⟨⟨k,n,got⟩,hcb,rfl⟩ := Option.map_eq_some_iff.mp h
    have hpre : l.wire.take l.taken ++ l.wire.drop l.taken <+: stream l.sent := by
      rw [List.take_append_drop]
      exact hl.sender.flows
    obtain ⟨hn,hr⟩ := readCb_keeps hl.receiver hpre hcb
    rw [List.length_drop] at hn
    have ht := hl.taken
    rw [← List.take_add] at hr
    exact ⟨hl.sender, show l.taken+n ≤ l.wire.length by omega, hr⟩
  | senderDies =>
    obtain rfl := Option.some.inj h
    exact ⟨SenderInv.of_dead hl.sender.flows rfl, hl.taken, hl.receiver⟩
  | receiverDies =>
    obtain rfl := Option.some.inj h
    obtain ⟨done,rest,hfr,hacc,_⟩ := hl.receiver.split
    exact ⟨hl.sender, hl.taken, ⟨done, rest, hfr, hacc, fun h => by contradiction⟩⟩

/-- What the receiver accepts is a prefix of what was sent: every PDU with the size and the bytes
of its sender, the first four of which are the size. -/
theorem accepted_prefix_sent (es : List LinkEvent) (l : Link)
    (hrun : run Link.step {} es = some l) :
    l.accepted <+: l.sent.map (fun p => (frame p, (p.bytes.length : ℤ))) := by
  have hl : LinkInv l := run_invariant (fun _ _ _ => link_step) LinkInv.init hrun
  obtain ⟨done,rest,hfr,hacc,_⟩ := hl.receiver.split
  have hmap : l.sent.map (fun p => (frame p, (p.bytes.length : ℤ))) =
      (frames l.sent).map (fun f => (f, (f.length : ℤ))) := by
    rw [frames, List.map_map]
    apply List.map_congr_left
    intro p _
    simp [frame_length]
  rw [hacc, hmap, hfr, List.map_append]
  exact List.prefix_append _ _

/-- Two PDUs of 24 bytes, of which the receiver has accepted the first. -/
theorem accepted_prefix_sent_two :
    let p : Pdu := ⟨List.replicate 24 1, by decide, by decide⟩
    let es : List LinkEvent :=
      [.send 0 p (.wrote 10), .send 1 p (.wrote 0), .writeCb (.failed true), .writeCb (.wrote 14),
        .readCb (.data 4) (.data 7) true, .wakeComplete 0, .wakeSend 1 (.wrote 3),
        .readCb (.data 4) (.data 13) false, .readCb (.data 4) (.data 1) true]
    (run Link.step {} es).map (fun l => (l.accepted.length, l.sent.length)) = some (1, 2) ∧
    ∀ l, run Link.step {} es = some l →
      l.accepted <+: l.sent.map (fun p => (frame p, (p.bytes.length : ℤ))) :=
  ⟨by decide +kernel, fun l h => accepted_prefix_sent _ l h⟩

end DisconnectedYfs.RPC
