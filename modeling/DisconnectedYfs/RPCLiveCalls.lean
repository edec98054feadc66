import DisconnectedYfs.RPCStoredReplies

/-! A live call is never refused as too old. The front of the client's window is an
acknowledgement: every xid up to it belongs to a call that has its reply or has returned. The
requests on the way carry old fronts, the server's mark is the front of some request, and so a
call that still waits is above the mark. This needs that xids have not wrapped. -/
namespace DisconnectedYfs.RPC
open TraceSystem

/-! The window of acknowledgements. -/

/-- The list is ordered, starts at or above `lo`, and `P` holds of its elements and of everything
up to its front. -/
structure Acked (P : UInt32 → Prop) (lo : UInt32) (w : List UInt32) : Prop where
  ne : w ≠ []
  sorted : w.Pairwise (· ≤ ·)
  mem : ∀ y ∈ w, P y
  below : ∀ f ∈ w.head?, lo ≤ f ∧ ∀ y ≤ f, P y

theorem Acked.mono {P Q : UInt32 → Prop} {lo : UInt32} {w : List UInt32} (h : Acked P lo w)
    (hPQ : ∀ y, P y → Q y) : Acked Q lo w :=
  ⟨h.ne, h.sorted, fun y hy => hPQ y (h.mem y hy),
    fun f hf => ⟨(h.below f hf).1, fun y hy => hPQ y ((h.below f hf).2 y hy)⟩⟩

/-- The front may go once its successor is in the list. -/
theorem Acked.pop {P : UInt32 → Prop} {lo f x : UInt32} {l : List UInt32}
    (h : Acked P lo (f :: l)) (hx : x ∈ l) (hfx : f+1 = x) : Acked P lo l := by
  obtain ⟨hf,hl⟩ := List.pairwise_cons.mp h.sorted
  obtain ⟨hlo,hbelow⟩ := h.below f rfl
  refine ⟨List.ne_nil_of_mem hx, hl, fun y hy => h.mem y (List.mem_cons_of_mem f hy), ?_⟩
  intro g hg
  cases l with
  | nil => cases hg
  | cons g' l =>
    obtain rfl : g' = g := Option.some.inj hg
    have hfg : f ≤ g' := hf g' List.mem_cons_self
    have hgx : g' ≤ x := by
      rcases List.mem_cons.mp hx with rfl | hx
      · exact UInt32.le_refl _
      · exact (List.pairwise_cons.mp hl).1 x hx
    refine ⟨UInt32.le_trans hlo hfg, fun y hy => ?_⟩
    by_cases hyf : y ≤ f
    · exact hbelow y hyf
    · -- what lies above `f` and not above `f+1` is `x`
      have hyx : y = x := by
        apply UInt32.toNat_inj.mp
        have hfx' := hf x hx
        have h1 : (f+1).toNat = (f.toNat+1) % 2^32 := UInt32.toNat_add f 1
        rw [hfx] at h1
        have h2 := UInt32.le_iff_toNat_le.mp (UInt32.le_trans hy hgx)
        have h3 := UInt32.le_iff_toNat_le.mp hfx'
        have h4 : ¬ y.toNat ≤ f.toNat := fun h => hyf (UInt32.le_iff_toNat_le.mpr h)
        omega
      rw [hyx]
      exact h.mem x (List.mem_cons_of_mem f hx)

theorem Acked.dropWhile {P : UInt32 → Prop} {lo x : UInt32} (front rest : List UInt32)
    (h : Acked P lo (front ++ x :: rest)) :
    Acked P lo (front.dropWhile (fun y => y+1 == x) ++ x :: rest) := by
  induction front with
  | nil => exact h
  | cons f front ih =>
    by_cases hf : (f+1 == x) = true
    · rw [List.dropWhile_cons, if_pos hf]
      exact ih (h.pop (List.mem_append_right _ List.mem_cons_self) (eq_of_beq hf))
    · rw [List.dropWhile_cons, if_neg hf]
      exact h

theorem Acked.compress {P : UInt32 → Prop} {lo : UInt32} (front rest : List UInt32)
    (h : Acked P lo (front ++ rest)) : Acked P lo (compress front rest) := by
  induction rest generalizing front with
  | nil =>
    rw [List.append_nil] at h
    exact h
  | cons x rest ih =>
    refine ih _ ?_
    rw [List.append_assoc]
    exact h.dropWhile front rest

theorem mem_insertXid {x y : UInt32} {w : List UInt32} (h : y ∈ insertXid x w) :
    y = x ∨ y ∈ w := by
  induction w with
  | nil => exact Or.inl (List.mem_singleton.mp h)
  | cons a w ih =>
    unfold insertXid at h
    split_ifs at h
    · exact List.mem_cons.mp h
    · rcases List.mem_cons.mp h with rfl | h
      · exact Or.inr List.mem_cons_self
      · exact (ih h).imp id (List.mem_cons_of_mem a)

theorem sorted_insertXid {x : UInt32} {w : List UInt32} (h : w.Pairwise (· ≤ ·)) :
    (insertXid x w).Pairwise (· ≤ ·) := by
  induction w with
  | nil => exact List.pairwise_singleton _ _
  | cons a w ih =>
    obtain ⟨ha,hw⟩ := List.pairwise_cons.mp h
    unfold insertXid
    split_ifs with hax
    · refine List.pairwise_cons.mpr ⟨fun y hy => ?_, h⟩
      have hxa : x ≤ a := UInt32.le_of_lt hax
      rcases List.mem_cons.mp hy with rfl | hy
      · exact hxa
      · exact UInt32.le_trans hxa (ha y hy)
    · refine List.pairwise_cons.mpr ⟨fun y hy => ?_, ih hw⟩
      rcases mem_insertXid hy with rfl | hy
      · exact UInt32.not_lt.mp hax
      · exact ha y hy

theorem Acked.update {P : UInt32 → Prop} {lo x : UInt32} {w : List UInt32} (h : Acked P lo w)
    (hx : P x) : Acked P lo (updateWindow x w) := by
  cases w with
  | nil => exact absurd rfl h.ne
  | cons f l =>
    unfold updateWindow
    dsimp only
    split_ifs with hle
    · exact h
    · have hfx : ¬ f > x := fun hgt => hle (UInt32.le_of_lt hgt)
      have hins : insertXid x (f :: l) = f :: insertXid x l := if_neg hfx
      rw [hins]
      refine Acked.compress [f] _ ⟨List.cons_ne_nil _ _, ?_, ?_, h.below⟩
      · have hs := sorted_insertXid (x := x) h.sorted
        rw [hins] at hs
        exact hs
      · intro y hy
        rcases List.mem_cons.mp hy with rfl | hy
        · exact h.mem y List.mem_cons_self
        · rcases mem_insertXid hy with rfl | hy
          · exact hx
          · exact h.mem y (List.mem_cons_of_mem f hy)

/-! The client. -/

/-- Every call with this xid has its reply or has returned. -/
def Rpcc.Settled (k : Rpcc) (x : UInt32) : Prop :=
  ∀ id ca, k.caller id = some ca → ca.xid = x → ca.done = true ∨ ca.returned = true

/-- The xid was allocated (or is 0) and its call has settled. -/
def Rpcc.Reported (k : Rpcc) (x : UInt32) : Prop := x < k.xid ∧ k.Settled x

/-- What a request header says about the call that packed it. -/
structure Packed (k : Rpcc) (ca : Caller) : Prop where
  xid : ca.req.xid.toUInt32 = ca.xid
  cltNonce : ca.req.cltNonce = k.cltNonce
  lt : ca.req.xidRep.toUInt32 < ca.xid
  le : ca.req.xidRep.toUInt32 ≤ k.front

structure ClientInv (k : Rpcc) : Prop where
  fresh : ∀ id ca, k.caller id = some ca → 0 < ca.xid ∧ ca.xid < k.xid
  unique : ∀ id ca id' ca', k.caller id = some ca → k.caller id' = some ca' →
    ca.xid = ca'.xid → id = id'
  registered : ∀ id ca, k.caller id = some ca → ca.returned = false → k.calls ca.xid = some id
  calls : ∀ x id, k.calls x = some id →
    ∃ ca, k.caller id = some ca ∧ ca.xid = x ∧ ca.returned = false
  window : Acked k.Reported 0 k.xidRepWindow
  packed : ∀ id ca, k.caller id = some ca → Packed k ca
  answered : ∀ id ca, k.caller id = some ca → ca.done = true → ca.intret ≠ atmostonceFailure

theorem front_mem_head {k : Rpcc} (h : k.xidRepWindow ≠ []) : k.front ∈ k.xidRepWindow.head? := by
  unfold Rpcc.front
  cases hw : k.xidRepWindow with
  | nil => exact absurd hw h
  | cons f l => rfl

theorem ClientInv.front_reported {k : Rpcc} (h : ClientInv k) {x : UInt32} (hx : x ≤ k.front) :
    k.Reported x := (h.window.below _ (front_mem_head h.window.ne)).2 x hx

theorem ClientInv.init (cltNonce : UInt32) : ClientInv { cltNonce := cltNonce } where
  fresh _ _ h := by cases h
  unique _ _ _ _ h := by cases h
  registered _ _ h := by cases h
  calls _ _ h := by cases h
  window := by
    have hrep : ∀ y : UInt32, y ≤ 0 → Rpcc.Reported { cltNonce := cltNonce } y := by
      intro y hy
      have hy0 : y = 0 := UInt32.toNat_inj.mp (Nat.le_zero.mp (UInt32.le_iff_toNat_le.mp hy))
      rw [hy0]
      refine ⟨?_, fun id ca h => by cases h⟩
      change (0 : UInt32) < 1
      decide
    refine ⟨List.cons_ne_nil _ _, List.pairwise_singleton _ _, ?_, ?_⟩
    · intro y hy
      rw [List.mem_singleton.mp hy]
      exact hrep 0 (UInt32.le_refl 0)
    · intro f hf
      obtain rfl := Option.some.inj hf
      exact ⟨UInt32.le_refl 0, hrep⟩
  packed _ _ h := by cases h
  answered _ _ h := by cases h

/-- What happens to a client in any step: xids, the front and the calls only move on. -/
structure Evolves (k k' : Rpcc) : Prop where
  nonce : k'.cltNonce = k.cltNonce
  xid : k.xid ≤ k'.xid
  front : k.front ≤ k'.front
  callers : ∀ id ca', k'.caller id = some ca' → ca'.xid = k.xid ∨ ∃ ca, k.caller id = some ca ∧
    ca'.xid = ca.xid ∧ (ca.done = true → ca'.done = true) ∧
    (ca.returned = true → ca'.returned = true)
  persist : ∀ id ca, k.caller id = some ca → ∃ ca', k'.caller id = some ca' ∧ ca'.req = ca.req

theorem Evolves.refl (k : Rpcc) : Evolves k k where
  nonce := rfl
  xid := UInt32.le_refl _
  front := UInt32.le_refl _
  callers _ ca h := Or.inr ⟨ca, h, rfl, fun h => h, fun h => h⟩
  persist _ ca h := ⟨ca, h, rfl⟩

theorem Evolves.lt {k k' : Rpcc} (h : Evolves k k') {x : UInt32} (hx : x < k.xid) : x < k'.xid :=
  UInt32.lt_of_lt_of_le hx h.xid

theorem Evolves.settled {k k' : Rpcc} (h : Evolves k k') {x : UInt32} (hx : x < k.xid)
    (hs : k.Settled x) : k'.Settled x := by
  intro id ca' hca' hcx
  rcases h.callers id ca' hca' with hnew | ⟨ca,hca,hxid,hdone,hret⟩
  · rw [← hcx, hnew] at hx
    exact absurd hx (UInt32.lt_irrefl _)
  · exact (hs id ca hca (hxid.symm.trans hcx)).imp hdone hret

/-- A step that changes one caller object, and the window by the xid of a settled call. -/
theorem Evolves.set_caller {k k' : Rpcc} {id : ℕ} {ca : Caller} (ca' : Caller)
    (hca : k.caller id = some ca)
    (hxid : ca'.xid = ca.xid) (hreq : ca'.req = ca.req) (hdone : ca.done = true → ca'.done = true)
    (hret : ca.returned = true → ca'.returned = true) (hnonce : k'.cltNonce = k.cltNonce)
    (hx : k'.xid = k.xid) (hfront : k.front ≤ k'.front)
    (hk' : k'.caller = Function.update k.caller id (some ca')) : Evolves k k' where
  nonce := hnonce
  xid := hx ▸ UInt32.le_refl _
  front := hfront
  callers := by
    intro j cj hj
    rw [hk'] at hj
    rcases caller_update hj with ⟨rfl,rfl⟩ | ⟨-,hj⟩
    · exact Or.inr ⟨ca, hca, hxid, hdone, hret⟩
    · exact Or.inr ⟨cj, hj, rfl, fun h => h, fun h => h⟩
  persist := by
    intro j cj hj
    rw [hk']
    by_cases hji : j = id
    · subst hji
      rw [hca] at hj
      obtain rfl := Option.some.inj hj
      exact ⟨ca', Function.update_self _ _ _, hreq⟩
    · exact ⟨cj, (Function.update_of_ne hji _ _).trans hj, rfl⟩

theorem start_clientInv {k k' : Rpcc} {id : ℕ} {proc : Int32} (hk : ClientInv k)
    (hwrap : k.xid.toNat+1 < 2^32) (h : k.start id proc = some k') :
    ClientInv k' ∧ Evolves k k' := by
  obtain ⟨hid,rfl | ⟨-,rfl⟩⟩ := Rpcc.start_cases h
  · exact ⟨hk, Evolves.refl _⟩
  · have hnext : (k.xid+1).toNat = k.xid.toNat+1 := by
      rw [UInt32.toNat_add]
      exact Nat.mod_eq_of_lt hwrap
    have hlt : ∀ x : UInt32, x ≤ k.xid → x < k.xid+1 := by
      intro x hx
      rw [UInt32.le_iff_toNat_le] at hx
      rw [UInt32.lt_iff_toNat_lt]
      omega
    have hpos : 0 < k.xid := (hk.front_reported (x := 0) UInt32.zero_le).1
    have hfront : k.front < k.xid := (hk.front_reported (UInt32.le_refl _)).1
    refine ⟨⟨?_, ?_, ?_, ?_, ?_, ?_, ?_⟩, ⟨rfl, UInt32.le_of_lt (hlt _ (UInt32.le_refl _)),
      UInt32.le_refl _, ?_, ?_⟩⟩
    · intro j ca hj
      rcases caller_update hj with ⟨rfl,rfl⟩ | ⟨-,hj⟩
      · exact ⟨hpos, hlt _ (UInt32.le_refl _)⟩
      · obtain ⟨h0,h1⟩ := hk.fresh j ca hj
        exact ⟨h0, hlt _ (UInt32.le_of_lt h1)⟩
    · intro i ci j cj hi hj hx
      rcases caller_update hi with ⟨rfl,rfl⟩ | ⟨-,hi'⟩ <;>
        rcases caller_update hj with ⟨rfl,rfl⟩ | ⟨-,hj'⟩
      · rfl
      · have hc := (hk.fresh j cj hj').2
        rw [← hx] at hc
        exact absurd hc (UInt32.lt_irrefl _)
      · have hc := (hk.fresh i ci hi').2
        rw [hx] at hc
        exact absurd hc (UInt32.lt_irrefl _)
      · exact hk.unique i ci j cj hi' hj' hx
    · intro j ca hj hret
      rcases caller_update hj with ⟨rfl,rfl⟩ | ⟨-,hj⟩
      · exact Function.update_self _ _ _
      · have hne : ca.xid ≠ k.xid := UInt32.ne_of_lt (hk.fresh j ca hj).2
        change Function.update k.calls k.xid (some id) ca.xid = some j
        rw [Function.update_of_ne hne]
        exact hk.registered j ca hj hret
    · intro x j hj
      by_cases hx : x = k.xid
      · subst hx
        change Function.update k.calls k.xid (some id) k.xid = some j at hj
        rw [Function.update_self] at hj
        obtain rfl := Option.some.inj hj
        exact ⟨k.newCaller proc, Function.update_self _ _ _, rfl, rfl⟩
      · change Function.update k.calls k.xid (some id) x = some j at hj
        rw [Function.update_of_ne hx] at hj
        obtain ⟨ca,hca,hcx⟩ := hk.calls x j hj
        have hji : j ≠ id := by
          rintro rfl
          rw [hid] at hca
          cases hca
        exact ⟨ca, (Function.update_of_ne hji _ _).trans hca, hcx⟩
    · refine hk.window.mono (fun y hy => ⟨hlt y (UInt32.le_of_lt hy.1), fun j ca hj hx => ?_⟩)
      rcases caller_update hj with ⟨rfl,rfl⟩ | ⟨-,hj⟩
      · exact absurd (hx ▸ hy.1) (UInt32.lt_irrefl _)
      · exact hy.2 j ca hj hx
    · intro j ca hj
      rcases caller_update hj with ⟨rfl,rfl⟩ | ⟨-,hj⟩
      · exact ⟨rfl, rfl, hfront, UInt32.le_refl _⟩
      · have hp := hk.packed j ca hj
        exact ⟨hp.xid, hp.cltNonce, hp.lt, hp.le⟩
    · intro j ca hj hdone
      rcases caller_update hj with ⟨rfl,rfl⟩ | ⟨-,hj⟩
      · cases hdone
      · exact hk.answered j ca hj hdone
    · intro j ca hj
      rcases caller_update hj with ⟨rfl,rfl⟩ | ⟨-,hj⟩
      · exact Or.inl rfl
      · exact Or.inr ⟨ca, hj, rfl, fun h => h, fun h => h⟩
    · intro j ca hj
      have hji : j ≠ id := by
        rintro rfl
        rw [hid] at hj
        cases hj
      exact ⟨ca, (Function.update_of_ne hji _ _).trans hj, rfl⟩

/-- A call that gets its reply, or returns and leaves `calls_`. -/
theorem ClientInv.set_caller {k : Rpcc} (hk : ClientInv k) {id : ℕ} {ca : Caller} (ca' : Caller)
    (calls' : UInt32 → Option ℕ) (hca : k.caller id = some ca) (hxid : ca'.xid = ca.xid)
    (hreq : ca'.req = ca.req) (hdone : ca.done = true → ca'.done = true)
    (hret : ca.returned = true → ca'.returned = true)
    (hans : ca'.done = true → ca'.intret ≠ atmostonceFailure)
    (hothers : ∀ x, x ≠ ca.xid → calls' x = k.calls x)
    (hreg : ca'.returned = false → calls' ca.xid = some id)
    (hself : ∀ j, calls' ca.xid = some j → j = id ∧ ca'.returned = false) :
    ClientInv { k with calls := calls', caller := Function.update k.caller id (some ca') } := by
  refine ⟨?_, ?_, ?_, ?_, ?_, ?_, ?_⟩
  · intro j cj hj
    rcases caller_update hj with ⟨rfl,rfl⟩ | ⟨-,hj⟩
    · rw [hxid]
      exact hk.fresh j ca hca
    · exact hk.fresh j cj hj
  · intro i ci j cj hi hj hx
    rcases caller_update hi with ⟨rfl,rfl⟩ | ⟨-,hi'⟩ <;>
      rcases caller_update hj with ⟨rfl,rfl⟩ | ⟨-,hj'⟩
    · rfl
    · exact hk.unique i ca j cj hca hj' (hxid ▸ hx)
    · exact hk.unique i ci j ca hi' hca (hxid ▸ hx)
    · exact hk.unique i ci j cj hi' hj' hx
  · intro j cj hj hr
    rcases caller_update hj with ⟨rfl,rfl⟩ | ⟨hne,hj⟩
    · rw [hxid]
      exact hreg hr
    · have hx : cj.xid ≠ ca.xid := fun hx => hne (hk.unique j cj id ca hj hca hx)
      exact (hothers _ hx).trans (hk.registered j cj hj hr)
  · intro x j hj
    by_cases hx : x = ca.xid
    · subst hx
      obtain ⟨rfl,hr⟩ := hself j hj
      exact ⟨ca', Function.update_self _ _ _, hxid, hr⟩
    · obtain ⟨cj,hcj,hcx,hr⟩ := hk.calls x j ((hothers x hx).symm.trans hj)
      have hji : j ≠ id := by
        rintro rfl
        rw [hca] at hcj
        obtain rfl := Option.some.inj hcj
        exact hx hcx.symm
      exact ⟨cj, (Function.update_of_ne hji _ _).trans hcj, hcx, hr⟩
  · refine hk.window.mono (fun y hy => ⟨hy.1, fun j cj hj hx => ?_⟩)
    rcases caller_update hj with ⟨rfl,rfl⟩ | ⟨-,hj⟩
    · exact (hy.2 j ca hca (hxid ▸ hx)).imp hdone hret
    · exact hy.2 j cj hj hx
  · intro j cj hj
    rcases caller_update hj with ⟨rfl,rfl⟩ | ⟨-,hj⟩
    · have hp := hk.packed j ca hca
      refine ⟨?_, ?_, ?_, ?_⟩
      · rw [hreq, hxid, hp.xid]
      · rw [hreq, hp.cltNonce]
      · rw [hreq, hxid]
        exact hp.lt
      · rw [hreq]
        exact hp.le
    · have hp := hk.packed j cj hj
      exact ⟨hp.xid, hp.cltNonce, hp.lt, hp.le⟩
  · intro j cj hj hd
    rcases caller_update hj with ⟨rfl,rfl⟩ | ⟨-,hj⟩
    · exact hans hd
    · exact hk.answered j cj hj hd

/-- The front of the window only moves up. -/
theorem ClientInv.front_le_update {k : Rpcc} (hk : ClientInv k) {x : UInt32} (hx : k.Reported x) :
    k.front ≤ (k.updateXidRep x).front := by
  have hlo : Acked k.Reported k.front k.xidRepWindow := by
    refine ⟨hk.window.ne, hk.window.sorted, hk.window.mem, fun f hf => ?_⟩
    have hfront := front_mem_head hk.window.ne
    rw [Option.mem_def] at hf hfront
    rw [hf] at hfront
    obtain rfl := Option.some.inj hfront
    exact ⟨UInt32.le_refl _, (hk.window.below _ hf).2⟩
  have hu := hlo.update hx
  exact (hu.below _ (front_mem_head (k := k.updateXidRep x) hu.ne)).1

theorem ClientInv.report {k : Rpcc} (hk : ClientInv k) {x : UInt32} (hx : k.Reported x) :
    ClientInv (k.updateXidRep x) := by
  refine ⟨hk.fresh, hk.unique, hk.registered, hk.calls, hk.window.update hx, ?_, hk.answered⟩
  intro j cj hj
  have hp := hk.packed j cj hj
  exact ⟨hp.xid, hp.cltNonce, hp.lt, UInt32.le_trans hp.le (hk.front_le_update hx)⟩

/-- Only the call itself has its xid. -/
theorem ClientInv.settled_of {k : Rpcc} (hk : ClientInv k) {id : ℕ} {ca : Caller}
    (hca : k.caller id = some ca) (h : ca.done = true ∨ ca.returned = true) :
    k.Reported ca.xid := by
  refine ⟨(hk.fresh id ca hca).2, fun j cj hj hx => ?_⟩
  obtain rfl := hk.unique j cj id ca hj hca hx
  rw [hca] at hj
  obtain rfl := Option.some.inj hj
  exact h

theorem finish_clientInv {k k' : Rpcc} {id : ℕ} (hk : ClientInv k)
    (h : k.finish id = some k') : ClientInv k' ∧ Evolves k k' := by
  obtain ⟨ca,hca,hret,rfl⟩ := Rpcc.finish_cases h
  have hk' := hk.set_caller { ca with returned := true }
    (Function.update k.calls ca.xid none) hca rfl rfl (fun h => h) (fun _ => rfl)
    (hk.answered id ca hca) (fun x hx => Function.update_of_ne hx _ _)
    (fun h => by contradiction) (fun j hj => by rw [Function.update_self] at hj; cases hj)
  have hrep := hk'.settled_of (Function.update_self id _ k.caller) (Or.inr rfl)
  exact ⟨hk'.report hrep, Evolves.set_caller { ca with returned := true } hca rfl rfl
    (fun h => h) (fun _ => rfl) rfl rfl (hk'.front_le_update hrep) rfl⟩

/-- A reply for an allocated xid, which is not a refusal unless its call has settled. -/
def FairReply (k : Rpcc) (b : Bytes) : Prop :=
  ∀ h body, parseReply b = some (h, body) →
    h.xid.toUInt32 < k.xid ∧ (h.ret = atmostonceFailure → k.Settled h.xid.toUInt32)

theorem takeReply_clientInv {k : Rpcc} {id : ℕ} {ca : Caller} (hk : ClientInv k)
    (hca : k.caller id = some ca) (hid : k.calls ca.xid = some id) (hret : ca.returned = false)
    (h : ReplyHeader) (body : Bytes) (hfair : h.ret = atmostonceFailure → k.Settled ca.xid) :
    let k' := { k.updateXidRep ca.xid with
      caller := Function.update k.caller id (some (ca.takeReply h body)) }
    ClientInv k' ∧ Evolves k k' := by
  obtain ⟨h1,h2,h4,h3⟩ := takeReply_frame ca h body
  have h5 : (ca.takeReply h body).intret ≠ atmostonceFailure := by
    unfold Caller.takeReply
    split_ifs with hd
    · exact hk.answered id ca hca hd
    · intro hr
      rcases hfair hr id ca hca rfl with h1 | h1
      · exact hd h1
      · rw [hret] at h1
        cases h1
  generalize ca.takeReply h body = ca' at h1 h2 h3 h4 h5
  have hk' := hk.set_caller ca' k.calls hca h1 h2 (fun _ => h3) (fun h => h4.trans h)
    (fun _ => h5) (fun _ _ => rfl) (fun _ => hid)
    (fun j hj => ⟨Option.some.inj (hj.symm.trans hid), h4.trans hret⟩)
  have hrep := hk'.settled_of (Function.update_self _ _ _) (Or.inl h3)
  rw [h1] at hrep
  exact ⟨hk'.report hrep, Evolves.set_caller ca' hca h1 h2 (fun _ => h3)
    (fun h => h4.trans h) rfl rfl
    (hk'.front_le_update hrep) rfl⟩

theorem gotPdu_clientInv {k : Rpcc} {b : Bytes} (hk : ClientInv k) (hb : FairReply k b) :
    ClientInv (k.gotPdu b) ∧ Evolves k (k.gotPdu b) := by
  rcases k.gotPdu_cases b with ⟨-,h⟩ | ⟨h,body,hp,⟨hnone,heq⟩ | ⟨id,hid,heq⟩⟩
  · rw [h]
    exact ⟨hk, Evolves.refl k⟩
  · rw [heq]
    obtain ⟨hlt,-⟩ := hb h body hp
    have hrep : k.Reported h.xid.toUInt32 := by
      refine ⟨hlt, fun j cj hj hx => Or.inr ?_⟩
      -- a call that has not returned is registered
      by_contra hr
      have hreg := hk.registered j cj hj (Bool.not_eq_true _ ▸ hr)
      rw [hx, hnone] at hreg
      cases hreg
    have hev := Evolves.refl k
    exact ⟨hk.report hrep, hev.nonce, hev.xid, hk.front_le_update hrep, hev.callers, hev.persist⟩
  · rw [heq]
    obtain ⟨-,hfair⟩ := hb h body hp
    obtain ⟨ca,hca,hx,hret⟩ := hk.calls _ id hid
    rw [← hx] at hid hfair ⊢
    rw [hca]
    exact takeReply_clientInv hk hca hid hret h body hfair

theorem bind_clientInv {k k' : Rpcc} {id : ℕ} (hk : ClientInv k) (h : k.bind id = some k') :
    ClientInv k' ∧ Evolves k k' := by
  obtain ⟨ca,r,u,hca,-,-,-,-,-,rfl⟩ := Rpcc.bind_cases h
  have hk' := hk.set_caller { ca with bound := true } k.calls hca rfl rfl
    (fun h => h) (fun h => h) (hk.answered id ca hca) (fun _ _ => rfl) (hk.registered id ca hca)
    (fun j hj => by
      obtain ⟨cj,hcj,hcx,hr⟩ := hk.calls _ j hj
      obtain rfl := hk.unique j cj id ca hcj hca hcx
      rw [hca] at hcj
      obtain rfl := Option.some.inj hcj
      exact ⟨rfl, hr⟩)
  have hpacked := hk'.packed
  refine ⟨⟨hk'.fresh, hk'.unique, hk'.registered, hk'.calls, hk'.window, fun j cj hj => ?_,
    hk'.answered⟩, Evolves.set_caller { ca with bound := true } hca rfl rfl
      (fun h => h) (fun h => h) rfl rfl (UInt32.le_refl _) rfl⟩
  have hp := hpacked j cj hj
  exact ⟨hp.xid, hp.cltNonce, hp.lt, hp.le⟩

/-! Client, server and network together. -/

theorem FairReply.evolve {k k' : Rpcc} {b : Bytes} (hb : FairReply k b) (hev : Evolves k k') :
    FairReply k' b := by
  intro h body hp
  obtain ⟨hlt,hfair⟩ := hb h body hp
  exact ⟨hev.lt hlt, fun hr => hev.settled hlt (hfair hr)⟩

theorem fairReply_replyBuf {k : Rpcc} {h : ReplyHeader} {body : Bytes}
    (hlen : (replyBuf h body).length < 2^31) (hlt : h.xid.toUInt32 < k.xid)
    (hfair : h.ret = atmostonceFailure → k.Settled h.xid.toUInt32) :
    FairReply k (replyBuf h body) := by
  intro h' body' hp
  rw [parseReply_replyBuf h body hlen] at hp
  obtain ⟨rfl,rfl⟩ := Option.some.inj hp
  exact ⟨hlt, hfair⟩

theorem fairReply_nil (k : Rpcc) : FairReply k [] := by
  intro h body hp
  have hnone : parseReply [] = none := by decide +kernel
  rw [hnone] at hp
  cases hp

/-- The marshalled header of every request came from a call; the server's mark is below the
client's front; no refusal is on its way to a call that waits. -/
structure LiveInv (s : Net) : Prop where
  client : ClientInv s.client
  requests : ∀ h ∈ s.requests, ∃ id ca, s.client.caller id = some ca ∧ ca.req = h
  ordered : ∀ n, Ordered (s.server.tables.window n)
  running : ∀ h ∈ s.server.running, h.xid.toUInt32 < s.client.xid
  mark : s.server.tables.highest s.client.cltNonce.toNat ≤ s.client.front.toNat
  stored : Stores (fun _ _ b => FairReply s.client b) s.server.tables
  replies : ∀ b ∈ s.replies, FairReply s.client b

/-- A step of the client alone. -/
theorem LiveInv.client_step {s : Net} (hs : LiveInv s) {k : Rpcc} (hk : ClientInv k)
    (hev : Evolves s.client k) : LiveInv { s with client := k } where
  client := hk
  requests := by
    intro h hh
    obtain ⟨id,ca,hca,hreq⟩ := hs.requests h hh
    obtain ⟨ca',hca',hreq'⟩ := hev.persist id ca hca
    exact ⟨id, ca', hca', hreq'.trans hreq⟩
  ordered := hs.ordered
  running h hh := hev.lt (hs.running h hh)
  mark := by
    change s.server.tables.highest k.cltNonce.toNat ≤ k.front.toNat
    rw [hev.nonce]
    exact Nat.le_trans hs.mark (UInt32.le_iff_toNat_le.mp hev.front)
  stored := hs.stored.mono (fun _ _ _ hb => hb.evolve hev)
  replies b hb := (hs.replies b hb).evolve hev

/-- What the headers on the way have in common. -/
theorem LiveInv.packed {s : Net} (hs : LiveInv s) {h : ReqHeader} (hh : h ∈ s.requests) :
    h.xidRep.toUInt32 < h.xid.toUInt32 ∧ h.xidRep.toUInt32 ≤ s.client.front ∧
      h.cltNonce = s.client.cltNonce ∧ h.xid.toUInt32 < s.client.xid := by
  obtain ⟨id,ca,hca,rfl⟩ := hs.requests h hh
  have hp := hs.client.packed id ca hca
  rw [hp.xid]
  exact ⟨hp.lt, hp.le, hp.cltNonce, (hs.client.fresh id ca hca).2⟩

/-- The mark stays below the front, and only a settled call is below the mark. -/
theorem LiveInv.check {s : Net} (hs : LiveInv s) {h : ReqHeader} (hh : h ∈ s.requests) {t : Rpcs}
    {v : RpcState} (hv : s.server.check h = some (t, v)) :
    t.highest s.client.cltNonce.toNat ≤ s.client.front.toNat ∧
      (v = .forgotten → s.client.Settled h.xid.toUInt32) := by
  obtain ⟨-,hle,hn,-⟩ := hs.packed hh
  by_cases hz : h.cltNonce = 0
  · obtain ⟨rfl,rfl⟩ := check_zero hz hv
    exact ⟨hs.mark, fun h => by contradiction⟩
  · have hspec := check_spec (hs.ordered _) (check_nonzero hz hv)
    have hmark : t.highest h.cltNonce.toNat ≤ s.client.front.toNat := by
      have h1 := hs.mark
      have h2 := UInt32.le_iff_toNat_le.mp hle
      rw [hspec.highest, hn]
      split_ifs
      · exact h2
      · exact Nat.max_le.mpr ⟨h1, h2⟩
    refine ⟨hn ▸ hmark, fun hf => ?_⟩
    subst hf
    have hlt := check_forgotten (check_nonzero hz hv)
    have hx : h.xid.toUInt32 ≤ s.client.front := UInt32.le_iff_toNat_le.mpr (by omega)
    exact (hs.client.front_reported hx).2

/-- What `dispatch` sends is fair. -/
theorem LiveInv.answers {s : Net} (hs : LiveInv s) {h : ReqHeader} (hh : h ∈ s.requests) {t : Rpcs}
    {v : RpcState} (hv : s.server.check h = some (t, v)) :
    ∀ b ∈ Server.answers h v, FairReply s.client b := by
  obtain ⟨-,-,-,hxlt⟩ := hs.packed hh
  intro b hb
  cases v with
  | new => cases hb
  | inProgress => cases hb
  | done buf sz =>
    rw [List.mem_singleton.mp hb]
    cases buf with
    | none => exact fairReply_nil _
    | some buf => exact (hs.stored.check hv).2 buf sz rfl
  | forgotten =>
    rw [List.mem_singleton.mp hb]
    refine fairReply_replyBuf ?_ hxlt (fun _ => (hs.check hh hv).2 rfl)
    rw [replyBuf_length]
    decide

theorem LiveInv.dispatch {s : Net} (hs : LiveInv s) {h : ReqHeader} (hh : h ∈ s.requests)
    {srv : Server} {out : List Bytes} (hd : s.server.dispatch h = some (srv, out)) :
    LiveInv { s with server := srv, replies := out ++ s.replies } := by
  obtain ⟨-,-,-,hxlt⟩ := hs.packed hh
  rcases Server.dispatch_cases hd with ⟨-,rfl,rfl⟩ | ⟨-,t,v,hv,rfl,rfl⟩
  · refine ⟨hs.client, hs.requests, hs.ordered, hs.running, hs.mark, hs.stored, fun b hb => ?_⟩
    rcases List.mem_cons.mp hb with rfl | hb
    · refine fairReply_replyBuf ?_ hxlt (fun hr => absurd hr (show oldsrvFailure ≠ _ by decide))
      rw [replyBuf_length]
      decide
    · exact hs.replies b hb
  · refine ⟨hs.client, hs.requests, check_ordered hs.ordered hv, ?_, (hs.check hh hv).1,
      (hs.stored.check hv).1, ?_⟩
    · intro r hr
      change r ∈ (if v = .new then h :: s.server.running else s.server.running) at hr
      split_ifs at hr
      · rcases List.mem_cons.mp hr with rfl | hr
        · exact hxlt
        · exact hs.running r hr
      · exact hs.running r hr
    · intro b hb
      rcases List.mem_append.mp hb with hb | hb
      · exact hs.answers hh hv b hb
      · exact hs.replies b hb

theorem LiveInv.reply {s : Net} (hs : LiveInv s) {h : ReqHeader} {ret : Int32} {body b : Bytes}
    {srv : Server} (hr : s.server.reply h ret body = some (srv, b)) :
    LiveInv { s with server := srv, replies := b :: s.replies } := by
  obtain ⟨hrun,hmay,hb,t,hsrv,hcase⟩ := Server.reply_cases hr
  obtain ⟨hpos,hlen,-⟩ := of_decide_eq_true hmay
  have hfair : FairReply s.client b := by
    rw [hb]
    refine fairReply_replyBuf hlen (hs.running h hrun) (fun hret => ?_)
    change ret = atmostonceFailure at hret
    rw [hret] at hpos
    exact absurd hpos (by decide)
  have hstored := hs.stored.reply (fun _ => hfair) hr
  subst hsrv
  refine ⟨hs.client, hs.requests, ?_, ?_, ?_, hstored, ?_⟩
  · intro n
    rcases hcase with ⟨-,rfl⟩ | ⟨-,hadd⟩
    · exact hs.ordered n
    · exact addReply_ordered hadd (hs.ordered n)
  · intro r hr
    exact hs.running r (List.mem_of_mem_erase hr)
  · rcases hcase with ⟨-,rfl⟩ | ⟨-,hadd⟩
    · exact hs.mark
    · change t.highest _ ≤ _
      rw [(addReply_frame (m := s.client.cltNonce.toNat) hadd).2]
      exact hs.mark
  · intro b' hb'
    rcases List.mem_cons.mp hb' with rfl | hb'
    · exact hfair
    · exact hs.replies b' hb'

def NetEvent.isStart : NetEvent → Bool
  | .start .. => true
  | _ => false

/-- How many calls a run makes. -/
def callsMade (es : List NetEvent) : ℕ := es.countP NetEvent.isStart

theorem live_step {s s' : Net} {e : NetEvent} (hs : LiveInv s) (n : ℕ)
    (hxid : s.client.xid.toNat ≤ n+1) (hn : n+callsMade [e] < 2^32-1) (h : s.step e = some s') :
    LiveInv s' ∧ s'.client.xid.toNat ≤ n+callsMade [e]+1 := by
  have hc := Net.step_cases h
  cases e with
  | start id proc =>
    obtain ⟨k,hk,rfl⟩ := hc
    have hn' : n+1 < 2^32-1 := hn
    obtain ⟨hinv,hev⟩ := start_clientInv hs.client (by omega) hk
    refine ⟨hs.client_step hinv hev, ?_⟩
    change k.xid.toNat ≤ n+1+1
    obtain ⟨-,rfl | ⟨-,rfl⟩⟩ := Rpcc.start_cases hk
    · omega
    · change (s.client.xid+1).toNat ≤ n+1+1
      rw [UInt32.toNat_add]
      exact Nat.le_trans (Nat.mod_le _ _) (by simpa using hxid)
  | transmit id =>
    obtain ⟨ca,hca,-,rfl⟩ := hc
    refine ⟨⟨hs.client, ?_, hs.ordered, hs.running, hs.mark, hs.stored, hs.replies⟩, hxid⟩
    intro h hh
    rcases List.mem_cons.mp hh with rfl | hh
    · exact ⟨id, ca, hca, rfl⟩
    · exact hs.requests h hh
  | deliver r =>
    obtain ⟨hr,srv,out,hd,rfl⟩ := hc
    exact ⟨hs.dispatch hr hd, hxid⟩
  | handled r ret body =>
    obtain ⟨srv,b,hr,rfl⟩ := hc
    exact ⟨hs.reply hr, hxid⟩
  | gotPdu b =>
    obtain ⟨hb,rfl⟩ := hc
    obtain ⟨hinv,hev⟩ := gotPdu_clientInv hs.client (hs.replies b hb)
    refine ⟨hs.client_step hinv hev, ?_⟩
    change (s.client.gotPdu b).xid.toNat ≤ n+1
    rw [Rpcc.gotPdu_xid]
    exact hxid
  | finish id =>
    obtain ⟨k,hk,rfl⟩ := hc
    obtain ⟨hinv,hev⟩ := finish_clientInv hs.client hk
    refine ⟨hs.client_step hinv hev, ?_⟩
    obtain ⟨ca,-,-,rfl⟩ := Rpcc.finish_cases hk
    exact hxid
  | bind id =>
    obtain ⟨k,hk,rfl⟩ := hc
    obtain ⟨hinv,hev⟩ := bind_clientInv hs.client hk
    refine ⟨hs.client_step hinv hev, ?_⟩
    obtain ⟨ca,r,u,-,-,-,-,-,-,rfl⟩ := Rpcc.bind_cases hk
    exact hxid

theorem LiveInv.init (cltNonce nonce : UInt32) (procs : Int32 → Bool) :
    LiveInv (Net.init cltNonce nonce procs) where
  client := ClientInv.init cltNonce
  requests _ h := by cases h
  ordered _ := List.Pairwise.nil
  running _ h := by cases h
  mark := Nat.zero_le _
  stored _ _ h := by cases h
  replies _ h := by cases h

theorem live_run (cltNonce nonce : UInt32) (procs : Int32 → Bool) {es : List NetEvent} {s : Net}
    (hcalls : callsMade es < 2^32-1)
    (hrun : run Net.step (Net.init cltNonce nonce procs) es = some s) :
    LiveInv s := by
  have main : callsMade es < 2^32-1 → LiveInv s ∧ s.client.xid.toNat ≤ callsMade es+1 := by
    refine run_history (I := fun es s => callsMade es < 2^32-1 →
      LiveInv s ∧ s.client.xid.toNat ≤ callsMade es+1) ?_ ?_ hrun
    · intro _
      exact ⟨LiveInv.init cltNonce nonce procs, Nat.le_refl 1⟩
    · intro fs e r r' _ ih hstep hlt
      have hsplit : callsMade (fs ++ [e]) = callsMade fs+callsMade [e] := List.countP_append
      rw [hsplit] at hlt ⊢
      obtain ⟨hinv,hxid⟩ := ih (by omega)
      exact live_step hinv _ hxid hlt hstep
  exact (main hcalls).1

/-- A live call is never refused as too old: every request passes `VERIFY(xid_rep < xid)`, a
request whose call waits is not `FORGOTTEN`, and no call returns `atmostonce_failure`. -/
theorem live_call_not_forgotten (cltNonce nonce : UInt32) (procs : Int32 → Bool)
    (es : List NetEvent) (s : Net) (hcalls : callsMade es < 2^32-1)
    (hrun : run Net.step (Net.init cltNonce nonce procs) es = some s) :
    (∀ h ∈ s.requests, h.xidRep.toUInt32 < h.xid.toUInt32) ∧
    (∀ h ∈ s.requests, ∀ id ca, s.client.caller id = some ca → ca.req = h → ca.done = false →
      ca.returned = false → ∀ t v, s.server.check h = some (t, v) → v ≠ .forgotten) ∧
    (∀ id ca, s.client.caller id = some ca → ca.result ≠ atmostonceFailure) := by
  have hs := live_run cltNonce nonce procs hcalls hrun
  refine ⟨fun h hh => (hs.packed hh).1, ?_, ?_⟩
  · intro h hh id ca hca hreq hdone hret t v hv hf
    have hsettled := (hs.check hh hv).2 hf
    have hx : ca.xid = h.xid.toUInt32 := by
      rw [← hreq]
      exact (hs.client.packed id ca hca).xid.symm
    rcases hsettled id ca hca hx with h1 | h1
    · rw [hdone] at h1
      contradiction
    · rw [hret] at h1
      contradiction
  · intro id ca hca
    unfold Caller.result
    split_ifs with hd
    · exact hs.client.answered id ca hca hd
    · decide

/-- The second call of the slow handler's run has overtaken the first and is waiting. -/
theorem live_call_not_forgotten_two :
    let h₃ : ReqHeader := { xid := 3, proc := 7, cltNonce := 5, srvNonce := 9, xidRep := 2 }
    ∃ s ca, run Net.step (Net.init 5 9 (fun _ => true)) (binds 5 9 ++ slowHandler 2) = some s ∧
      s.client.caller 2 = some ca ∧ h₃ ∈ s.requests ∧ ca.req = h₃ ∧ ca.done = false ∧
      ca.returned = false ∧ h₃.xidRep.toUInt32 < h₃.xid.toUInt32 ∧
      (∀ t v, s.server.check h₃ = some (t, v) → v ≠ .forgotten) ∧
      ca.result ≠ atmostonceFailure := by
  intro h₃
  obtain ⟨s,hrun,hs⟩ := reaches_of_any Net.step
    (fun s => h₃ ∈ s.requests ∧ s.client.caller 2 = some { xid := 3, req := h₃ })
    (Net.init 5 9 (fun _ => true)) (binds 5 9 ++ slowHandler 2) (by decide +kernel)
  obtain ⟨h1,h2,h3⟩ := live_call_not_forgotten 5 9 (fun _ => true) _ s (by decide +kernel) hrun
  exact ⟨s, _, hrun, hs.2, hs.1, rfl, rfl, rfl, h1 h₃ hs.1, h2 h₃ hs.1 2 _ hs.2 rfl rfl rfl,
    h3 2 _ hs.2⟩

end DisconnectedYfs.RPC
