import DisconnectedYfs.RPCRestart

/-! What a server with many clients is for one of them. The at-most-once tables are kept by client
nonce, so what the requests of the others do cannot be seen in what `dispatch` does for this one. -/
namespace DisconnectedYfs.RPC
open Std

/-- The tables of one client. -/
def Rpcs.only (t : Rpcs) (n : ℕ) : Rpcs where
  replyWindow := t.replyWindow.filter (fun m _ => m == n)
  highestXidRep := t.highestXidRep.filter (fun m _ => m == n)

/-- The server without its other clients. -/
def Server.only (s : Server) (c : UInt32) : Server :=
  { s with
    tables := s.tables.only c.toNat,
    running := s.running.filter (fun h => h.cltNonce == c) }

section
variable {α : Type} {m : ExtTreeMap ℕ α} {t t' : Rpcs} {n k x r sz : ℕ} {v : RpcState} {b : Bytes}

theorem filter_insert_self (a : α) :
    (m.insert n a).filter (fun k _ => k == n) = (m.filter (fun k _ => k == n)).insert n a := by
  apply ExtTreeMap.ext_getElem?
  intro k
  simp only [ExtTreeMap.getElem?_filter', ExtTreeMap.getElem?_insert,
    LawfulEqCmp.compare_eq_iff_eq]
  split_ifs with hk
  · subst hk
    simp
  · rfl

theorem filter_insert_other (a : α) (hk : k ≠ n) :
    (m.insert k a).filter (fun k _ => k == n) = m.filter (fun k _ => k == n) := by
  apply ExtTreeMap.ext_getElem?
  intro j
  simp only [ExtTreeMap.getElem?_filter', ExtTreeMap.getElem?_insert,
    LawfulEqCmp.compare_eq_iff_eq]
  split_ifs with hj
  · subst hj
    have hfalse : (k == n) = false := by simpa using hk
    cases m[k]? <;> simp [Option.filter, hfalse]
  · rfl

theorem filter_getElem : (m.filter (fun k _ => k == n))[n]? = m[n]? := by
  rw [ExtTreeMap.getElem?_filter']
  cases m[n]? <;> simp

@[simp] theorem only_window : (t.only n).window n = t.window n := by
  simp only [Rpcs.window, Rpcs.only, filter_getElem]

@[simp] theorem only_highest : (t.only n).highest n = t.highest n := by
  simp only [Rpcs.highest, Rpcs.only, filter_getElem]

theorem check_only (h : checkduplicateAndUpdate t n x r = some (t', v)) :
    checkduplicateAndUpdate (t.only n) n x r = some (t'.only n, v) := by
  unfold checkduplicateAndUpdate at h ⊢
  simp only [only_window, only_highest]
  by_cases hlt : r < x
  swap
  · rw [if_neg hlt] at h
    cases h
  rw [if_pos hlt] at h ⊢
  dsimp only at h ⊢
  split_ifs at h ⊢ <;> cases h <;> simp only [Rpcs.only, filter_insert_self]

theorem check_other (hk : k ≠ n) (h : checkduplicateAndUpdate t k x r = some (t', v)) :
    t'.only n = t.only n := by
  unfold checkduplicateAndUpdate at h
  dsimp only at h
  split_ifs at h <;> cases h <;>
    simp only [Rpcs.only, filter_insert_other _ hk]

theorem addReply_only (h : addReply t n x b sz = some t') :
    addReply (t.only n) n x b sz = some (t'.only n) := by
  unfold addReply at h ⊢
  rw [only_window]
  split_ifs at h ⊢
  obtain ⟨w,hw,rfl⟩ := Option.map_eq_some_iff.mp h
  rw [hw]
  simp only [Option.map_some, Rpcs.only, filter_insert_self]

theorem addReply_other (hk : k ≠ n) (h : addReply t k x b sz = some t') : t'.only n = t.only n := by
  unfold addReply at h
  split_ifs at h
  obtain ⟨w,hw,rfl⟩ := Option.map_eq_some_iff.mp h
  simp only [Rpcs.only, filter_insert_other _ hk]

end

section
variable {s s' : Server} {c : UInt32} {h : ReqHeader} {out : List Bytes} {ret : Int32}
    {body b : Bytes}

theorem toNat_ne {a d : UInt32} (h : a ≠ d) : a.toNat ≠ d.toNat := by
  intro heq
  exact h (UInt32.toNat_inj.mp heq)

theorem check_view {t : Rpcs} {v : RpcState} (hv : s.check h = some (t, v)) :
    (s.only h.cltNonce).check h = some (t.only h.cltNonce.toNat, v) := by
  by_cases hz : h.cltNonce = 0
  · obtain ⟨rfl,rfl⟩ := check_zero hz hv
    unfold Server.check dispatchCheck
    rw [hz, if_neg (by decide)]
    rfl
  · unfold Server.check dispatchCheck
    rw [if_pos (toNat_ne_zero hz)]
    exact check_only (check_nonzero hz hv)

theorem check_view_other {t : Rpcs} {v : RpcState} (hne : h.cltNonce ≠ c)
    (hv : s.check h = some (t, v)) : t.only c.toNat = s.tables.only c.toNat := by
  by_cases hz : h.cltNonce = 0
  · rw [(check_zero hz hv).1]
  · exact check_other (toNat_ne hne) (check_nonzero hz hv)

/-- Which requests the server refuses does not depend on its clients. -/
theorem refuses_only : (s.only c).refuses h ↔ s.refuses h := Iff.rfl

theorem dispatch_view (hd : s.dispatch h = some (s', out)) :
    (s.only h.cltNonce).dispatch h = some (s'.only h.cltNonce, out) := by
  unfold Server.dispatch at hd ⊢
  by_cases href : s.refuses h
  · rw [if_pos href] at hd
    rw [if_pos (refuses_only.mpr href)]
    cases hd
    rfl
  · rw [if_neg href] at hd
    rw [if_neg (mt refuses_only.mp href)]
    split_ifs at hd with hproc
    rw [if_neg (show ¬ ¬ (h.proc = bindProc ∨ (s.only h.cltNonce).procs h.proc) from
      not_not_intro hproc)]
    obtain ⟨⟨t,v⟩,hv,hres⟩ := Option.map_eq_some_iff.mp hd
    cases hres
    rw [check_view hv, Option.map_some]
    by_cases hnew : v = .new
    · simp [Server.only, hnew]
    · simp [Server.only, hnew]

theorem dispatch_view_other (hne : h.cltNonce ≠ c) (hd : s.dispatch h = some (s', out)) :
    s'.only c = s.only c := by
  rcases Server.dispatch_cases hd with ⟨-,rfl,-⟩ | ⟨-,t,v,hv,rfl,-⟩
  · rfl
  · have htables := check_view_other hne hv
    by_cases hnew : v = .new
    · simp [Server.only, hnew, htables, hne]
    · simp [Server.only, hnew, htables]

theorem runs_view (hruns : s.runs h = true) : (s.only h.cltNonce).runs h = true := by
  simp only [Server.runs, Bool.and_eq_true, Option.any_eq_true] at hruns ⊢
  obtain ⟨href,⟨t,v⟩,hv,hnew⟩ := hruns
  exact ⟨href, _, check_view hv, hnew⟩

theorem reply_view (hr : s.reply h ret body = some (s', b)) :
    (s.only h.cltNonce).reply h ret body = some (s'.only h.cltNonce, b) := by
  unfold Server.reply at hr ⊢
  split_ifs at hr with hrun hpos
  · have hmem : h ∈ (s.only h.cltNonce).running := List.mem_filter.mpr ⟨hrun.1, by simp⟩
    rw [if_pos ⟨hmem, hrun.2⟩, if_pos hpos]
    obtain ⟨t,ht,hres⟩ := Option.map_eq_some_iff.mp hr
    cases hres
    have hadd : addReply (s.only h.cltNonce).tables h.cltNonce.toNat h.xid.toUInt32.toNat
        (replyBuf ⟨h.xid, ret⟩ body) (replyBuf ⟨h.xid, ret⟩ body).length =
        some (t.only h.cltNonce.toNat) := addReply_only ht
    rw [hadd, Option.map_some]
    simp [Server.only, List.erase_filter]
  · have hmem : h ∈ (s.only h.cltNonce).running := List.mem_filter.mpr ⟨hrun.1, by simp⟩
    rw [if_pos ⟨hmem, hrun.2⟩, if_neg hpos]
    cases hr
    simp [Server.only, List.erase_filter]

theorem reply_view_other (hne : h.cltNonce ≠ c) (hr : s.reply h ret body = some (s', b)) :
    s'.only c = s.only c := by
  obtain ⟨-,-,-,t,rfl,hcase⟩ := Server.reply_cases hr
  have htables : t.only c.toNat = s.tables.only c.toNat := by
    rcases hcase with ⟨-,rfl⟩ | ⟨-,hadd⟩
    · rfl
    · exact addReply_other (toNat_ne hne) hadd
  have hrunning : (s.running.erase h).filter (fun h => h.cltNonce == c) =
      s.running.filter (fun h => h.cltNonce == c) := by
    rw [← List.erase_filter]
    apply List.erase_of_not_mem
    simp [hne]
  simp only [Server.only, htables, hrunning]

end

end DisconnectedYfs.RPC
