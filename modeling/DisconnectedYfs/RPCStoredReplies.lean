import DisconnectedYfs.RPCEviction

/-! What the buffers in the reply window are. A property of the buffer stored for a client and an
xid that holds when `add_reply` stores it holds as long as it is stored, and in particular when a
duplicate request is answered with it. -/
namespace DisconnectedYfs.RPC

/-- Every buffer stored for client `n` and id `x` has the property. -/
def Stores (Q : ℕ → ℕ → Bytes → Prop) (t : Rpcs) : Prop :=
  ∀ n, ∀ r ∈ t.window n, ∀ b, r.buf = some b → Q n r.xid b

theorem Stores.mono {Q Q' : ℕ → ℕ → Bytes → Prop} {t : Rpcs} (h : Stores Q t)
    (hQ : ∀ n x b, Q n x b → Q' n x b) : Stores Q' t :=
  fun n r hr b hb => hQ n r.xid b (h n r hr b hb)

theorem mem_classify {β : Type} {x : ℕ} {front rest : List (Reply β)} {e : Reply β}
    (h : e ∈ (classify x front rest).1) : e ∈ front ∨ e ∈ rest ∨ e = { xid := x } := by
  unfold classify at h
  split at h
  · rcases List.mem_append.mp h with h | h
    · exact Or.inl h
    · exact Or.inr (Or.inr (List.mem_singleton.mp h))
  · split_ifs at h
    · rcases List.mem_append.mp h with h | h
      · exact Or.inl h
      · rcases List.mem_cons.mp h with h | h
        · exact Or.inr (Or.inr h)
        · exact Or.inr (Or.inl h)
    all_goals
      rcases List.mem_append.mp h with h | h
      · exact Or.inl h
      · exact Or.inr (Or.inl h)

/-- The loop stops at the first entry that is not below the request. -/
theorem scan_rest_ge {β : Type} (x r : ℕ) (w : List (Reply β)) {e : Reply β} {es : List (Reply β)}
    (h : (scan x r w).2 = e :: es) : x ≤ e.xid := by
  induction w with
  | nil => cases h
  | cons a w ih =>
    unfold scan at h
    split_ifs at h with h1 h2
    · exact ih h
    · exact ih h
    · obtain ⟨rfl,-⟩ := List.cons.inj h
      omega

/-- A request is `DONE` only with the buffer of an entry that has its id. -/
theorem classify_done {β : Type} {x r : ℕ} {front w : List (Reply β)} {b : Option β} {sz : ℕ}
    (h : (classify x front (scan x r w).2).2 = .done b sz) :
    ∃ e ∈ w, e ∈ (classify x front (scan x r w).2).1 ∧ e.xid = x ∧ e.buf = b ∧ e.sz = sz := by
  rcases hs : (scan x r w).2 with _ | ⟨e,es⟩
  · rw [hs] at h
    cases h
  · have hge := scan_rest_ge x r w hs
    rw [hs] at h
    unfold classify at h ⊢
    dsimp only at h ⊢
    split_ifs at h ⊢ with h1 h2
    obtain ⟨hb,hsz⟩ := RpcState.done.inj h
    have hmem : e ∈ w := by
      apply (scan_sublist x r w).subset
      rw [hs]
      exact List.mem_append_right _ List.mem_cons_self
    exact ⟨e, hmem, List.mem_append_right _ List.mem_cons_self, by omega, hb, hsz⟩

/-- What a check can put into the window and answer with. -/
theorem check_window {β : Type} {s s' : Rpcs β} {n x r : ℕ} {v : RpcState β}
    (h : checkduplicateAndUpdate s n x r = some (s', v)) :
    (∀ e ∈ s'.window n, e ∈ s.window n ∨ e = { xid := x }) ∧
    ∀ b sz, v = .done b sz →
      ∃ e ∈ s.window n, e ∈ s'.window n ∧ e.xid = x ∧ e.buf = b ∧ e.sz = sz := by
  unfold checkduplicateAndUpdate at h
  by_cases hlt : r < x
  swap
  · rw [if_neg hlt] at h
    cases h
  rw [if_pos hlt] at h
  dsimp only at h
  generalize hF : (if s.window n = [] then [{ xid := x }] else ([] : List (Reply β))) = front at h
  generalize (if s.window n = [] then r else s.highest n) = h0 at h
  have hfront : ∀ e ∈ front, e = { xid := x } := by
    intro e he
    rw [← hF] at he
    split_ifs at he
    · exact List.mem_singleton.mp he
    · cases he
  generalize (if r > h0 then r else h0) = mark at h
  split_ifs at h with hforgot
  · obtain ⟨rfl,rfl⟩ := Option.some.inj h
    rw [window_insert, if_pos rfl]
    refine ⟨fun e he => ?_, fun b sz hv => by contradiction⟩
    rcases List.mem_append.mp he with he | he
    · exact Or.inr (hfront e he)
    · exact Or.inl he
  · obtain ⟨rfl,rfl⟩ := Option.some.inj h
    rw [window_insert, if_pos rfl]
    refine ⟨fun e he => ?_, fun b sz hv => classify_done hv⟩
    have hsub := (scan_sublist x r (s.window n)).subset
    rcases mem_classify he with he | he | he
    · rcases List.mem_append.mp he with he | he
      · exact Or.inr (hfront e he)
      · exact Or.inl (hsub (List.mem_append_left _ he))
    · exact Or.inl (hsub (List.mem_append_right _ he))
    · exact Or.inr he

theorem classify_ne_forgotten {β : Type} (x : ℕ) (front rest : List (Reply β)) :
    (classify x front rest).2 ≠ .forgotten := by
  unfold classify
  split
  · simp
  · split_ifs <;> simp

/-- A request is `FORGOTTEN` only below the mark. -/
theorem check_forgotten {s s' : Rpcs} {n x r : ℕ}
    (h : checkduplicateAndUpdate s n x r = some (s', .forgotten)) : x < s'.highest n := by
  unfold checkduplicateAndUpdate at h
  by_cases hlt : r < x
  swap
  · rw [if_neg hlt] at h
    cases h
  rw [if_pos hlt] at h
  dsimp only at h
  generalize (if s.window n = [] then [{ xid := x }] else ([] : List Reply)) = front at h
  generalize (if s.window n = [] then r else s.highest n) = h0 at h
  generalize (if r > h0 then r else h0) = mark at h
  split_ifs at h with hforgot
  · obtain ⟨rfl,-⟩ := Prod.mk.inj (Option.some.inj h)
    rw [highest_insert, if_pos rfl]
    exact hforgot
  · obtain ⟨-,hv⟩ := Prod.mk.inj (Option.some.inj h)
    exact absurd hv (classify_ne_forgotten _ _ _)

theorem Stores.check {Q : ℕ → ℕ → Bytes → Prop} {s : Server} {h : ReqHeader} {t : Rpcs}
    {v : RpcState} (hs : Stores Q s.tables) (hv : s.check h = some (t, v)) :
    Stores Q t ∧ ∀ b sz, v = .done (some b) sz → Q h.cltNonce.toNat h.xid.toUInt32.toNat b := by
  by_cases hn : h.cltNonce = 0
  · obtain ⟨rfl,rfl⟩ := check_zero hn hv
    exact ⟨hs, fun b sz hb => by contradiction⟩
  · have hc := check_nonzero hn hv
    obtain ⟨hwin,hdone⟩ := check_window hc
    refine ⟨fun m r hr b hb => ?_, fun b sz hb => ?_⟩
    · by_cases hm : h.cltNonce.toNat = m
      · subst hm
        rcases hwin r hr with hr | rfl
        · exact hs _ r hr b hb
        · cases hb
      · rw [(check_frame hm hc).1] at hr
        exact hs m r hr b hb
    · obtain ⟨e,he,-,hx,hbuf,-⟩ := hdone _ _ hb
      rw [← hx]
      exact hs _ e he b hbuf

theorem mem_fillReply {β : Type} {x : ℕ} {b : β} {sz : ℕ} {w w' : List (Reply β)}
    (h : fillReply x b sz w = some w') {e : Reply β} (he : e ∈ w') :
    e ∈ w ∨ (e.xid = x ∧ e.buf = some b ∧ e.sz = sz) := by
  induction w generalizing w' with
  | nil => cases h
  | cons a w ih =>
    unfold fillReply at h
    split_ifs at h with ha
    · obtain rfl := Option.some.inj h
      rcases List.mem_cons.mp he with rfl | he
      · exact Or.inr ⟨ha, rfl, rfl⟩
      · exact Or.inl (List.mem_cons_of_mem a he)
    · obtain ⟨u,hu,rfl⟩ := Option.map_eq_some_iff.mp h
      rcases List.mem_cons.mp he with rfl | he
      · exact Or.inl List.mem_cons_self
      · rcases ih hu he with he | he
        · exact Or.inl (List.mem_cons_of_mem a he)
        · exact Or.inr he

theorem Stores.addReply {Q : ℕ → ℕ → Bytes → Prop} {t t' : Rpcs} {n x : ℕ} {b : Bytes} {sz : ℕ}
    (hs : Stores Q t) (hb : Q n x b) (h : addReply t n x b sz = some t') : Stores Q t' := by
  unfold RPC.addReply at h
  split_ifs at h
  obtain ⟨w,hw,rfl⟩ := Option.map_eq_some_iff.mp h
  intro m r hr b' hb'
  rw [show Rpcs.window { t with replyWindow := t.replyWindow.insert n w } m =
    if n = m then w else t.window m from window_insert t.replyWindow t.highestXidRep n m w] at hr
  split_ifs at hr with hnm
  · subst hnm
    rcases mem_fillReply hw hr with hr | ⟨hx,hbuf,-⟩
    · exact hs n r hr b' hb'
    · rw [hbuf] at hb'
      cases hb'
      rw [hx]
      exact hb
  · exact hs m r hr b' hb'

/-- The end of a handler stores at most its own reply. -/
theorem Stores.reply {Q : ℕ → ℕ → Bytes → Prop} {s s' : Server} {h : ReqHeader} {ret : Int32}
    {body b : Bytes} (hs : Stores Q s.tables)
    (hb : h.cltNonce ≠ 0 → Q h.cltNonce.toNat h.xid.toUInt32.toNat b)
    (hr : s.reply h ret body = some (s', b)) : Stores Q s'.tables := by
  obtain ⟨-,-,-,t,rfl,hcase⟩ := Server.reply_cases hr
  rcases hcase with ⟨-,rfl⟩ | ⟨hn,hadd⟩
  · exact hs
  · exact hs.addReply (hb hn) hadd

/-- Whatever `dispatch` sends is a failure it made itself or a stored buffer. -/
theorem Stores.dispatch {Q : ℕ → ℕ → Bytes → Prop} {s s' : Server} {h : ReqHeader}
    {out : List Bytes} (hs : Stores Q s.tables) (hd : s.dispatch h = some (s', out)) :
    Stores Q s'.tables ∧ ∀ b ∈ out, b = replyBuf ⟨h.xid, oldsrvFailure⟩ [] ∨
      b = replyBuf ⟨h.xid, atmostonceFailure⟩ [] ∨ b = [] ∨
      Q h.cltNonce.toNat h.xid.toUInt32.toNat b := by
  rcases Server.dispatch_cases hd with ⟨-,rfl,rfl⟩ | ⟨-,t,v,hv,rfl,rfl⟩
  · refine ⟨hs, fun b hb => Or.inl ?_⟩
    exact List.mem_singleton.mp hb
  · obtain ⟨ht,hdone⟩ := hs.check hv
    refine ⟨ht, fun b hb => ?_⟩
    cases v with
    | new => cases hb
    | inProgress => cases hb
    | done buf sz =>
      have hb' := List.mem_singleton.mp hb
      cases buf with
      | none => exact Or.inr (Or.inr (Or.inl hb'))
      | some buf =>
        rw [hb']
        exact Or.inr (Or.inr (Or.inr (hdone buf sz rfl)))
    | forgotten => exact Or.inr (Or.inl (List.mem_singleton.mp hb))

end DisconnectedYfs.RPC
