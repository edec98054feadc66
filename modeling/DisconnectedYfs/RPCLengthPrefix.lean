import DisconnectedYfs.RPCConnection

/-! What `readpdu` makes of the size at the start of a PDU, whatever the other side sends as
one. -/
namespace DisconnectedYfs.RPC
open Connection

/-- A PDU in the course of being read: its size is between that of the size field and `MAX_PDU`,
its buffer is large enough, and what was read is inside. -/
structure Charbuf.InOrder (c : Charbuf) : Prop where
  size : rpcSz ≤ c.sz ∧ c.sz ≤ maxPdu
  room : c.sz ≤ allocSize c.sz
  solong : 0 ≤ c.solong ∧ c.solong ≤ c.sz
  stored : ∃ b, c.buf = some b ∧ (b.length : ℤ) = c.solong

/-- The connection was given up with no PDU, or the PDU it reads is in order. -/
def Settled (k : Connection) : Prop := (k.dead = true ∧ k.rpdu = {}) ∨ k.rpdu.InOrder

/-- The calls of `read_cb` for one PDU with the results of their reads, up to the one in which
`got_pdu` consumes it. -/
def callbacks : Bytes → List (ReadResult × ReadResult) → Connection → Option Connection
  | _, [], k => some k
  | avail, (r₁, r₂) :: rs, k =>
    (k.readCb avail r₁ r₂ false).bind (fun (k', n, _) => callbacks (avail.drop n) rs k')

/-- What `read` can answer if asked for `want` bytes. -/
def ReadResult.Possible (avail : Bytes) (want : ℕ) : ReadResult → Prop
  | .data n => canRead avail want n = true
  | .eof _ | .failed _ => True

/-- Whatever follows the size `w` and whatever the reads return: the call that reads the size
comes to an end, and after it and any further calls the size was rejected or is in order. -/
def LengthChecked (w : Bytes) (k : Connection) : Prop :=
  ∀ rest r, r.Possible rest ((ntohl w-rpcSz) % 2^64).toNat →
    (k.readCb (w ++ rest) (.data rpcSz) r false).isSome ∧
    ∀ rs k', callbacks (w ++ rest) ((.data rpcSz, r) :: rs) k = some k' → Settled k'

section
variable {k k' : Connection} {avail w : Bytes} {r r₁ r₂ : ReadResult} {n : ℕ} {ok : Bool}

/-- `read_cb` if `got_pdu` does not consume the PDU. -/
theorem readCb_refused (k : Connection) (avail : Bytes) (r₁ r₂ : ReadResult)
    (h : k.dead = false) : k.readCb avail r₁ r₂ false =
      (if k.rpdu.buf.isNone ∨ k.rpdu.solong < k.rpdu.sz then k.readpdu avail r₁ r₂
        else some (k, 0, true)).map
        (fun (k, n, succ) => (if succ then k else { k with dead := true }, n, none)) := by
  unfold readCb
  rw [h]
  simp only [Bool.false_eq_true, if_false, and_false]
  congr 1
  funext ⟨k₁,m,succ⟩
  dsimp only
  split <;> rfl

/-- A read asks for what the PDU still lacks, so it stays in order or is given up. -/
theorem Charbuf.InOrder.readBody (hk : k.rpdu.InOrder) (h : k.readBody avail r = some (k', n, ok)) :
    (ok = true ∧ k'.rpdu.InOrder) ∨ (ok = false ∧ k'.rpdu = {}) := by
  have hgive : ∀ again : Bool,
      (if again then some (k, 0, true) else some ({ k with rpdu := {} }, 0, false)) =
        some (k', n, ok) →
      (ok = true ∧ k'.rpdu.InOrder) ∨ (ok = false ∧ k'.rpdu = {}) := by
    intro again h
    cases again with
    | true =>
      obtain ⟨rfl,rfl,rfl⟩ := Option.some.inj h
      exact Or.inl ⟨rfl, hk⟩
    | false =>
      obtain ⟨rfl,rfl,rfl⟩ := Option.some.inj h
      exact Or.inr ⟨rfl, rfl⟩
  cases r with
  | eof again => exact hgive again h
  | failed again => exact hgive again h
  | data m =>
    unfold Connection.readBody at h
    dsimp only at h
    split_ifs at h with hcan
    obtain ⟨rfl,rfl,rfl⟩ := Option.some.inj h
    obtain ⟨-,havail,hwant⟩ := of_decide_eq_true hcan
    obtain ⟨⟨h4,hmax⟩,hroom,⟨h0,hle⟩,b,hb,hlen⟩ := hk
    have hmax' : k.rpdu.sz ≤ 10*2^20 := hmax
    have hmod : (k.rpdu.sz-k.rpdu.solong) % 2^64 = k.rpdu.sz-k.rpdu.solong :=
      Int.emod_eq_of_lt (by omega) (by omega)
    rw [hmod] at hwant
    refine Or.inl ⟨rfl, ⟨h4, hmax⟩, hroom, ⟨?_, ?_⟩, b ++ avail.take n, ?_, ?_⟩
    · show 0 ≤ k.rpdu.solong+n
      omega
    · show k.rpdu.solong+n ≤ k.rpdu.sz
      omega
    · rw [hb]
      rfl
    · show ((b ++ avail.take n).length : ℤ) = k.rpdu.solong+n
      rw [List.length_append, List.length_take, Nat.min_eq_left havail]
      omega

theorem readBody_isSome (h : r.Possible avail ((k.rpdu.sz-k.rpdu.solong) % 2^64).toNat) :
    (k.readBody avail r).isSome := by
  cases r with
  | eof again => cases again <;> rfl
  | failed again => cases again <;> rfl
  | data m =>
    unfold readBody
    dsimp only
    rw [if_pos (show canRead avail _ m = true from h)]
    rfl

theorem Settled.readCb (hk : Settled k) {res : Option (Bytes × ℤ)}
    (h : k.readCb avail r₁ r₂ false = some (k', n, res)) : Settled k' := by
  by_cases hdead : k.dead = true
  · unfold Connection.readCb at h
    rw [if_pos hdead] at h
    obtain ⟨rfl,rfl,rfl⟩ := Option.some.inj h
    exact hk
  · have hord : k.rpdu.InOrder := hk.resolve_left (fun h => hdead h.1)
    rw [readCb_refused k avail r₁ r₂ (Bool.not_eq_true _ ▸ hdead)] at h
    obtain ⟨⟨k₁,m,succ⟩,hpdu,hres⟩ := Option.map_eq_some_iff.mp h
    obtain ⟨rfl,rfl,rfl⟩ := hres
    split_ifs at hpdu with hmore
    · -- the size is not zero, so this goes on with the PDU
      have hsz : ¬ k.rpdu.sz = 0 := by
        have h4 := hord.size.1
        have : rpcSz = 4 := rfl
        omega
      unfold readpdu at hpdu
      rw [if_neg hsz] at hpdu
      rcases hord.readBody hpdu with ⟨rfl,hin⟩ | ⟨rfl,hnew⟩
      · exact Or.inr hin
      · exact Or.inl ⟨rfl, hnew⟩
    · obtain ⟨rfl,rfl,rfl⟩ := Option.some.inj hpdu
      exact Or.inr hord

theorem Settled.callbacks (hk : Settled k) {rs : List (ReadResult × ReadResult)}
    (h : callbacks avail rs k = some k') : Settled k' := by
  induction rs generalizing avail k with
  | nil =>
    cases h
    exact hk
  | cons r rs ih =>
    obtain ⟨⟨k₁,m,res⟩,hcb,hrest⟩ := Option.bind_eq_some_iff.mp h
    exact ih (hk.readCb hcb) hrest

/-- The call that reads a size up to `MAX_PDU`. -/
theorem readCb_size (hlive : k.dead = false) (hnew : k.rpdu = {}) (hw : w.length = rpcSz)
    (hmax : ¬ ntohl w > maxPdu) (rest : Bytes) (r : ReadResult) :
    k.readCb (w ++ rest) (.data rpcSz) r false =
      if allocSize (ntohl w) ≥ 2^63 then none
      else (({ k with rpdu :=
        { buf := some w, sz := ntohl w, solong := rpcSz } } : Connection).readBody rest r).map
          (fun (k, n, succ) => (if succ then k else { k with dead := true }, rpcSz+n, none)) := by
  have hcan : canRead (w ++ rest) rpcSz rpcSz = true := by
    have h4 : rpcSz = 4 := rfl
    simp [canRead, hw, h4]
  have htake : (w ++ rest).take rpcSz = w := by rw [← hw, List.take_left]
  have hdrop : (w ++ rest).drop rpcSz = rest := by rw [← hw, List.drop_left]
  rw [readCb_refused k _ _ _ hlive, hnew]
  unfold readpdu
  simp only [hnew, Option.isNone_none, true_or, if_true, hcan, htake, hdrop, hmax, if_false,
    ne_eq, not_true, Option.isSome_none, Bool.false_eq_true]
  split_ifs
  · rfl
  · rw [Option.map_map]
    rfl

theorem readCb_too_big (hlive : k.dead = false) (hnew : k.rpdu = {}) (hw : w.length = rpcSz)
    (hmax : ntohl w > maxPdu) (rest : Bytes) (r : ReadResult) :
    k.readCb (w ++ rest) (.data rpcSz) r false = some ({ k with dead := true }, rpcSz, none) := by
  have hcan : canRead (w ++ rest) rpcSz rpcSz = true := by
    have h4 : rpcSz = 4 := rfl
    simp [canRead, hw, h4]
  have htake : (w ++ rest).take rpcSz = w := by rw [← hw, List.take_left]
  rw [readCb_refused k _ _ _ hlive]
  unfold readpdu
  simp only [hnew, Option.isNone_none, true_or, if_true, hcan, htake, hmax, if_false,
    ne_eq, not_true]
  rw [← hnew]
  rfl

/-- The size is checked exactly if it is above `MAX_PDU` or covers its own field: there is no test
for smaller ones. -/
theorem length_checked_iff (k : Connection) (hlive : k.dead = false) (hnew : k.rpdu = {})
    (w : Bytes) (hw : w.length = rpcSz) :
    LengthChecked w k ↔ maxPdu < ntohl w ∨ rpcSz ≤ ntohl w := by
  constructor
  · intro h
    by_contra hsmall
    obtain ⟨hmax,hlt⟩ := not_or.mp hsmall
    -- nothing has arrived behind the size
    obtain ⟨hsome,hset⟩ := h [] (.failed true) trivial
    have hcall := readCb_size hlive hnew hw hmax [] (.failed true)
    split_ifs at hcall with halloc
    · rw [hcall] at hsome
      cases hsome
    · have hrun : callbacks (w ++ []) [(.data rpcSz, .failed true)] k = some
          { k with rpdu := { buf := some w, sz := ntohl w, solong := rpcSz } } := by
        unfold callbacks
        rw [hcall]
        rfl
      rcases hset [] _ hrun with ⟨-,hempty⟩ | hord
      · cases hempty
      · exact hlt hord.size.1
  · intro h rest r hr
    have hstep : (k.readCb (w ++ rest) (.data rpcSz) r false).isSome ∧
        ∀ k' n res, k.readCb (w ++ rest) (.data rpcSz) r false = some (k', n, res) →
          Settled k' := by
      by_cases hmax : ntohl w > maxPdu
      · rw [readCb_too_big hlive hnew hw hmax]
        refine ⟨rfl, ?_⟩
        intro k' n res h
        obtain ⟨rfl,rfl,rfl⟩ := Option.some.inj h
        exact Or.inl ⟨rfl, hnew⟩
      · have h4 : (rpcSz : ℤ) ≤ ntohl w := h.resolve_left hmax
        have hle : ntohl w ≤ maxPdu := Int.not_lt.mp hmax
        have hsmall : ntohl w ≤ 10*2^20 := hle
        have hpos : (rpcSz : ℤ) = 4 := rfl
        have halloc : (allocSize (ntohl w) : ℤ) = ntohl w+rpcSz := by
          unfold allocSize
          omega
        have hord : ({ buf := some w, sz := ntohl w, solong := rpcSz } : Charbuf).InOrder := by
          refine ⟨⟨h4, hle⟩, ?_, ⟨Int.natCast_nonneg _, h4⟩, w, rfl, ?_⟩
          · show ntohl w ≤ allocSize (ntohl w)
            omega
          · rw [hw]
        rw [readCb_size hlive hnew hw hmax, if_neg (by omega)]
        refine ⟨?_, ?_⟩
        · rw [Option.isSome_map]
          exact readBody_isSome hr
        · intro k' n res h
          obtain ⟨⟨k₁,m,succ⟩,hbody,hres⟩ := Option.map_eq_some_iff.mp h
          obtain ⟨rfl,rfl,rfl⟩ := hres
          rcases Charbuf.InOrder.readBody hord hbody with ⟨rfl,hin⟩ | ⟨rfl,hempty⟩
          · exact Or.inr hin
          · exact Or.inl ⟨rfl, hempty⟩
    refine ⟨hstep.1, ?_⟩
    intro rs k' hrun
    obtain ⟨⟨k₁,m,res⟩,hcb,hrest⟩ := Option.bind_eq_some_iff.mp hrun
    exact (hstep.2 k₁ m res hcb).callbacks hrest

end

theorem length_checked_header :
    ({} : Connection).dead = false ∧ ({} : Connection).rpdu = {} ∧
    [0, 0, 0, 24].length = rpcSz ∧ LengthChecked [0, 0, 0, 24] {} :=
  ⟨rfl, rfl, rfl, (length_checked_iff {} rfl rfl [0, 0, 0, 24] rfl).mpr
    (Or.inr (by decide))⟩

/-- A size of -1 is taken, and its buffer has three bytes. -/
theorem length_unchecked :
    (({} : Connection).readCb [0xff, 0xff, 0xff, 0xff] (.data 4) (.failed true) false).map
      (fun (k, _, _) => (k.dead, k.rpdu.sz, allocSize k.rpdu.sz, k.rpdu.solong)) =
        some (false, -1, 3, 4) ∧
    ¬ LengthChecked [0xff, 0xff, 0xff, 0xff] {} := by
  have hrun : callbacks [0xff, 0xff, 0xff, 0xff] [(.data 4, .failed true)] {} =
      some { rpdu := { buf := some [0xff, 0xff, 0xff, 0xff], sz := -1, solong := 4 } } := by
    rfl
  refine ⟨by decide +kernel, ?_⟩
  intro h
  rcases (h [] (.failed true) trivial).2 [] _ hrun with ⟨hdead,-⟩ | hord
  · cases hdead
  · have hsize := hord.size.1
    revert hsize
    decide

end DisconnectedYfs.RPC
