import DisconnectedYfs.RPCStoredReplies

/-! The buffers of the stored replies (`rpcs::dispatch`, `checkduplicate_and_update` and `add_reply`
in `rpc/rpc.cc`). `dispatch` sends a stored reply after it has given back `reply_window_m_`, and
meanwhile a request that acknowledges the reply may free its buffer. Unless that happens, the server
does what `Server` does, which answers in the step in which it looks into the tables. -/
namespace DisconnectedYfs.RPC
open Std

/-! The tables do not look into the buffers. -/

section
variable {β γ : Type} {f g : β → γ} {t t' : Rpcs β} {n m x r sz : ℕ} {v : RpcState β} {b : β}
  {w w' : List (Reply β)} {e : Reply β}

def Reply.map (f : β → γ) (e : Reply β) : Reply γ := ⟨e.xid, e.cbPresent, e.buf.map f, e.sz⟩

def RpcState.map (f : β → γ) : RpcState β → RpcState γ
  | .new => .new
  | .inProgress => .inProgress
  | .done b sz => .done (b.map f) sz
  | .forgotten => .forgotten

def Rpcs.map (f : β → γ) (t : Rpcs β) : Rpcs γ where
  replyWindow := t.replyWindow.map (fun _ w => w.map (Reply.map f))
  highestXidRep := t.highestXidRep

/-- The buffers of a client's replies. -/
def Rpcs.bufs (t : Rpcs β) (n : ℕ) : List β := (t.window n).filterMap Reply.buf

/-- The entries that the loop of `checkduplicate_and_update` erases. -/
def erased (xid xidRep : ℕ) : List (Reply β) → List (Reply β)
  | [] => []
  | r :: rs =>
    if r.xid < xid then
      if r.xid ≤ xidRep then r :: erased xid xidRep rs else erased xid xidRep rs
    else []

/-- What the loop frees, if the function gets there. -/
def freed (xid xidRep : ℕ) (w : List (Reply β)) : RpcState β → List β
  | .forgotten => []
  | _ => (erased xid xidRep w).filterMap Reply.buf

@[simp] theorem map_window : (t.map f).window n = (t.window n).map (Reply.map f) := by
  simp only [Rpcs.window, Rpcs.map, ExtTreeMap.getElem?_map]
  cases t.replyWindow[n]? <;> rfl

@[simp] theorem map_highest : (t.map f).highest n = t.highest n := rfl

@[simp] theorem map_eq_new : v.map f = .new ↔ v = .new := by
  cases v <;> simp [RpcState.map]

theorem insert_map (m : ExtTreeMap ℕ (List (Reply β))) (n : ℕ) (w : List (Reply β)) :
    (m.insert n w).map (fun _ w => w.map (Reply.map f)) =
      (m.map (fun _ w => w.map (Reply.map f))).insert n (w.map (Reply.map f)) := by
  apply ExtTreeMap.ext_getElem?
  intro k
  simp only [ExtTreeMap.getElem?_map, ExtTreeMap.getElem?_insert, LawfulEqCmp.compare_eq_iff_eq]
  split_ifs <;> rfl

theorem scan_map (w : List (Reply β)) : scan x r (w.map (Reply.map f)) =
    ((scan x r w).1.map (Reply.map f), (scan x r w).2.map (Reply.map f)) := by
  induction w with
  | nil => rfl
  | cons e w ih =>
    simp only [List.map_cons, scan, Reply.map] at ih ⊢
    split_ifs
    · exact ih
    · rw [ih]
      rfl
    · rfl

theorem classify_map (front rest : List (Reply β)) :
    classify x (front.map (Reply.map f)) (rest.map (Reply.map f)) =
      ((classify x front rest).1.map (Reply.map f), (classify x front rest).2.map f) := by
  cases rest with
  | nil => simp [classify, Reply.map, RpcState.map]
  | cons e rest =>
    simp only [List.map_cons, classify, Reply.map]
    split_ifs <;> simp [Reply.map, RpcState.map]

theorem check_map : checkduplicateAndUpdate (t.map f) n x r =
    (checkduplicateAndUpdate t n x r).map (fun p => (p.1.map f, p.2.map f)) := by
  have hfront : (if t.window n = [] then [({ xid := x } : Reply γ)] else []) =
      (if t.window n = [] then [({ xid := x } : Reply β)] else []).map (Reply.map f) := by
    split_ifs <;> rfl
  unfold checkduplicateAndUpdate
  simp only [map_window, map_highest, List.map_eq_nil_iff, scan_map, hfront]
  rw [← List.map_append, ← List.map_append, classify_map]
  by_cases hlt : r < x
  swap
  · rw [if_neg hlt, if_neg hlt]
    rfl
  rw [if_pos hlt, if_pos hlt]
  split_ifs <;> simp only [Option.map_some, Rpcs.map, RpcState.map, insert_map]

theorem fillReply_map (w : List (Reply β)) : fillReply x (f b) sz (w.map (Reply.map f)) =
    (fillReply x b sz w).map (List.map (Reply.map f)) := by
  induction w with
  | nil => rfl
  | cons e w ih =>
    simp only [List.map_cons, fillReply, Reply.map] at ih ⊢
    split_ifs
    · rfl
    · rw [ih, Option.map_map, Option.map_map]
      rfl

theorem addReply_map : addReply (t.map f) n x (f b) sz =
    (addReply t n x b sz).map (Rpcs.map f) := by
  unfold addReply
  rw [map_window, fillReply_map]
  split_ifs
  · rw [Option.map_map, Option.map_map]
    congr 1
    funext w
    simp only [Function.comp_apply, Rpcs.map, insert_map]
  · rfl

/-- Only the buffers that are stored count. -/
theorem map_congr (h : ∀ n, ∀ b ∈ t.bufs n, f b = g b) : t.map f = t.map g := by
  unfold Rpcs.map
  congr 1
  apply ExtTreeMap.ext_getElem?
  intro n
  rw [ExtTreeMap.getElem?_map, ExtTreeMap.getElem?_map]
  rcases hw : t.replyWindow[n]? with _ | w
  · rfl
  · refine congrArg some (List.map_congr_left (fun e he => ?_))
    unfold Reply.map
    rcases hb : e.buf with _ | b
    · rfl
    · have hmem : b ∈ t.bufs n := by
        refine List.mem_filterMap.mpr ⟨e, ?_, hb⟩
        rw [Rpcs.window, hw]
        exact he
      rw [Option.map_some, Option.map_some, h n b hmem]

/-! What becomes of the buffers. -/

theorem scan_perm (w : List (Reply β)) :
    w.Perm (erased x r w ++ ((scan x r w).1 ++ (scan x r w).2)) := by
  induction w with
  | nil => exact .nil
  | cons e w ih =>
    unfold erased scan
    split_ifs
    · exact ih.cons e
    · exact (ih.cons e).trans List.perm_middle.symm
    · exact List.Perm.refl _

theorem classify_bufs (front rest : List (Reply β)) :
    (classify x front rest).1.filterMap Reply.buf =
    (front ++ rest).filterMap Reply.buf := by
  cases rest with
  | nil => simp [classify]
  | cons e rest =>
    unfold classify
    dsimp only
    split_ifs <;> simp [List.filterMap_append, List.filterMap_cons]

/-- What leaves the window is freed, and what stays was there before. -/
theorem check_bufs (h : checkduplicateAndUpdate t n x r = some (t', v)) :
    (t.bufs n).Perm (freed x r (t.window n) v ++ t'.bufs n) := by
  unfold checkduplicateAndUpdate at h
  by_cases hlt : r < x
  swap
  · rw [if_neg hlt] at h
    cases h
  rw [if_pos hlt] at h
  dsimp only at h
  generalize hF : (if t.window n = [] then [{ xid := x }] else ([] : List (Reply β))) = front at h
  generalize (if t.window n = [] then r else t.highest n) = h0 at h
  generalize (if r > h0 then r else h0) = mark at h
  have hfront : front.filterMap Reply.buf = [] := by
    rw [← hF]
    split_ifs <;> rfl
  unfold Rpcs.bufs
  split_ifs at h with hforgot
  · cases h
    rw [window_insert, if_pos rfl, List.filterMap_append, hfront]
    exact List.Perm.refl _
  · obtain ⟨rfl,hv⟩ := Prod.mk.inj (Option.some.inj h)
    have hfreed : freed x r (t.window n) v = (erased x r (t.window n)).filterMap Reply.buf := by
      rw [← hv]
      unfold freed
      split
      · rename_i heq
        exact absurd heq (classify_ne_forgotten _ _ _)
      · rfl
    rw [hfreed, window_insert, if_pos rfl, classify_bufs, List.append_assoc, List.filterMap_append,
      hfront, List.nil_append, ← List.filterMap_append]
    exact (scan_perm (t.window n)).filterMap Reply.buf

theorem fillReply_bufs (h : fillReply x b sz w = some w') :
    ∃ l : List β, l.Sublist (w.filterMap Reply.buf) ∧ (w'.filterMap Reply.buf).Perm (b :: l) := by
  induction w generalizing w' with
  | nil => cases h
  | cons e w ih =>
    unfold fillReply at h
    split_ifs at h
    · cases h
      exact ⟨_, (List.sublist_cons_self e w).filterMap Reply.buf, List.Perm.refl _⟩
    · obtain ⟨u,hu,rfl⟩ := Option.map_eq_some_iff.mp h
      obtain ⟨l,hl,hp⟩ := ih hu
      rcases he : e.buf with _ | c
      · rw [List.filterMap_cons_none he, List.filterMap_cons_none he]
        exact ⟨l, hl, hp⟩
      · rw [List.filterMap_cons_some he, List.filterMap_cons_some he]
        exact ⟨c :: l, hl.cons_cons c, (hp.cons c).trans (List.Perm.swap b c l)⟩

/-- `add_reply` changes one window, in which it stores one buffer. -/
theorem addReply_window (h : addReply t n x b sz = some t') :
    (∃ l : List β, l.Sublist (t.bufs n) ∧ (t'.bufs n).Perm (b :: l)) ∧
    (∀ m, n ≠ m → t'.window m = t.window m) ∧
    ∀ e ∈ t'.window n, e ∈ t.window n ∨ e.buf = some b ∧ e.sz = sz := by
  unfold addReply at h
  split_ifs at h
  obtain ⟨w,hw,rfl⟩ := Option.map_eq_some_iff.mp h
  have hwin : ∀ m, Rpcs.window { t with replyWindow := t.replyWindow.insert n w } m =
      if n = m then w else t.window m :=
    fun m => window_insert t.replyWindow t.highestXidRep n m w
  refine ⟨?_, fun m hm => (hwin m).trans (if_neg hm), fun e he => ?_⟩
  · unfold Rpcs.bufs
    rw [hwin, if_pos rfl]
    exact fillReply_bufs hw
  · rw [hwin, if_pos rfl] at he
    exact (mem_fillReply hw he).imp id And.right

/-- An entry after `add_reply` is old or has the new buffer. -/
theorem addReply_mem (h : addReply t n x b sz = some t') {e : Reply β} (he : e ∈ t'.window m) :
    e ∈ t.window m ∨ e.buf = some b ∧ e.sz = sz := by
  obtain ⟨-,hother,hown⟩ := addReply_window h
  by_cases hm : n = m
  · subst hm
    exact hown e he
  · rw [hother m hm] at he
    exact Or.inl he

/-- The new buffer is in one table. -/
theorem addReply_bufs (h : addReply t n x b sz = some t') {c : β} (hc : c ∈ t'.bufs m) :
    c = b ∧ m = n ∨ c ∈ t.bufs m := by
  obtain ⟨⟨l,hl,hperm⟩,hother,-⟩ := addReply_window h
  by_cases hm : n = m
  · subst hm
    obtain rfl | hc := List.mem_cons.mp (hperm.mem_iff.mp hc)
    · exact Or.inl ⟨rfl, rfl⟩
    · exact Or.inr (hl.subset hc)
  · right
    unfold Rpcs.bufs at hc ⊢
    rwa [← hother m hm]

/-- No entry shares the new buffer. -/
theorem addReply_nodup (h : addReply t n x b sz = some t') (hb : b ∉ t.bufs n)
    (hnodup : (t.bufs m).Nodup) : (t'.bufs m).Nodup := by
  obtain ⟨⟨l,hl,hperm⟩,hother,-⟩ := addReply_window h
  by_cases hm : n = m
  · subst hm
    have hnew : b ∉ l := fun hmem => hb (hl.subset hmem)
    exact hperm.nodup_iff.mpr (List.nodup_cons.mpr ⟨hnew, hnodup.sublist hl⟩)
  · unfold Rpcs.bufs at hnodup ⊢
    rwa [hother m hm]

end

/-- A worker at `c->send(b1, sz1)`: the request, and the address and the size of its stored reply.
`freed` records that the buffer was freed meanwhile. -/
structure PendingSend where
  req : ReqHeader
  buf : ℕ
  sz : ℕ
  freed : Bool := false
deriving DecidableEq, Repr

/-- An `rpcs` instance whose tables hold addresses. `heap` is what the buffers of stored replies
hold; no other memory is looked into. -/
structure BufferedServer where
  nonce : UInt32
  procs : Int32 → Bool
  tables : Rpcs ℕ := {}
  running : List ReqHeader := []
  heap : ℕ → Option Bytes := fun _ => none
  sending : List PendingSend := []

namespace BufferedServer

/-- The server without its replies. -/
def plain (s : BufferedServer) : Server :=
  { nonce := s.nonce, procs := s.procs, running := s.running }

/-- `checkduplicate_and_update` with the fields of a header. -/
def check (s : BufferedServer) (h : ReqHeader) : Option (Rpcs ℕ × RpcState ℕ) :=
  dispatchCheck s.tables h.cltNonce.toNat h.xid.toUInt32.toNat h.xidRep.toUInt32.toNat

/-- The buffers that it frees. -/
def frees (s : BufferedServer) (h : ReqHeader) (v : RpcState ℕ) : List ℕ :=
  if h.cltNonce = 0 then []
  else freed h.xid.toUInt32.toNat h.xidRep.toUInt32.toNat (s.tables.window h.cltNonce.toNat) v

def free (l : List ℕ) (s : BufferedServer) : BufferedServer :=
  { s with
    heap := fun a => if a ∈ l then none else s.heap a
    sending := s.sending.map (fun w => if w.buf ∈ l then { w with freed := true } else w) }

/-- The stored reply that `dispatch` is to send next. -/
def picked (h : ReqHeader) : RpcState ℕ → List PendingSend
  | .done (some a) sz => [{ req := h, buf := a, sz := sz }]
  | _ => []

/-- What it sends from a buffer of its own. Nobody else frees that, so it goes out at once. -/
def ownAnswers (h : ReqHeader) : RpcState ℕ → List Bytes
  | .forgotten => [replyBuf ⟨h.xid, atmostonceFailure⟩ []]
  | _ => []

/-- `dispatch` up to the handler or the `send`, with the replies that are sent already; `none` is a
failed `VERIFY`. -/
def dispatch (s : BufferedServer) (h : ReqHeader) : Option (BufferedServer × List Bytes) :=
  if s.plain.refuses h then some (s, [replyBuf ⟨h.xid, oldsrvFailure⟩ []])
  else if ¬ (h.proc = bindProc ∨ s.procs h.proc) then none
  else
    (s.check h).map (fun (t, v) =>
      let s := s.free (s.frees h v)
      ({ s with
          tables := t
          running := if v = .new then h :: s.running else s.running
          sending := picked h v ++ s.sending }, ownAnswers h v))

/-- `dispatch` from the end of the handler to the `send`. The buffer of the `marshall` object, which
moves as it grows, is at `a` in the end; a reply that is not remembered is the worker's own. -/
def reply (s : BufferedServer) (h : ReqHeader) (ret : Int32) (body : Bytes) (a : ℕ) :
    Option (BufferedServer × List Bytes) :=
  if h ∈ s.running ∧ s.plain.mayReturn h ret body ∧ s.heap a = none then
    let b := replyBuf ⟨h.xid, ret⟩ body
    let s := { s with running := s.running.erase h }
    if h.cltNonce > 0 then
      (addReply s.tables h.cltNonce.toNat h.xid.toUInt32.toNat a b.length).map (fun t =>
        ({ s with
            tables := t
            heap := Function.update s.heap a (some b)
            sending := { req := h, buf := a, sz := b.length } :: s.sending }, []))
    else some (s, [b])
  else none

/-- `c->send(b1, sz1)` by the worker `k`. By now a buffer that was freed may hold another reply,
with `rest` behind it; there is no result if it holds none. -/
def send (s : BufferedServer) (k : ℕ) (rest : Bytes) : Option (BufferedServer × UInt32 × Bytes) :=
  (s.sending[k]?).bind (fun w => (s.heap w.buf).bind (fun b =>
    if w.sz ≤ b.length+rest.length then
      some ({ s with sending := s.sending.eraseIdx k }, w.req.cltNonce, (b ++ rest).take w.sz)
    else none))

/-- The worker `k` has a buffer that was not freed. -/
def holds (s : BufferedServer) (k : ℕ) : Bool := (s.sending[k]?).all (fun w => !w.freed)

/-- What a buffer holds. -/
def value (s : BufferedServer) (a : ℕ) : Bytes := (s.heap a).getD []

/-- The buffers hold what the tables of `t` hold. Each belongs to one entry; and a worker whose
buffer was not freed will send what is in it, of which `P` says where else it is. -/
structure Refines (s : BufferedServer) (t : Server) (P : UInt32 → Bytes → Prop) : Prop where
  nonce : t.nonce = s.nonce
  procs : t.procs = s.procs
  running : t.running = s.running
  tables : t.tables = s.tables.map s.value
  nodup : ∀ n, (s.tables.bufs n).Nodup
  apart : ∀ n m a, a ∈ s.tables.bufs n → a ∈ s.tables.bufs m → n = m
  stored : ∀ n, ∀ r ∈ s.tables.window n, ∀ a, r.buf = some a →
    ∃ b, s.heap a = some b ∧ r.sz = b.length
  pending : ∀ w ∈ s.sending, w.freed = false →
    ∃ b, s.heap w.buf = some b ∧ w.sz = b.length ∧ P w.req.cltNonce b

section
variable {s s' : BufferedServer} {t : Server} {P Q : UInt32 → Bytes → Prop} {h : ReqHeader}
  {out : List Bytes} {tab : Rpcs ℕ} {v : RpcState ℕ} {ret : Int32} {body : Bytes} {a k : ℕ}

theorem Refines.mono (hr : s.Refines t P) (hPQ : ∀ c b, P c b → Q c b) : s.Refines t Q := by
  refine ⟨hr.nonce, hr.procs, hr.running, hr.tables, hr.nodup, hr.apart, hr.stored,
    fun w hw hf => ?_⟩
  obtain ⟨b,hb,hsz,hp⟩ := hr.pending w hw hf
  exact ⟨b, hb, hsz, hPQ _ _ hp⟩

theorem Refines.live (hr : s.Refines t P) {n : ℕ} (ha : a ∈ s.tables.bufs n) :
    ∃ b, s.heap a = some b := by
  obtain ⟨r,hmem,hbuf⟩ := List.mem_filterMap.mp ha
  obtain ⟨b,hb,-⟩ := hr.stored n r hmem a hbuf
  exact ⟨b, hb⟩

theorem refines_init (nonce : UInt32) (procs : Int32 → Bool) :
    Refines { nonce := nonce, procs := procs } { nonce := nonce, procs := procs } P := by
  have hwin : ∀ n, Rpcs.window ({} : Rpcs ℕ) n = [] := fun n => rfl
  have hempty : (∅ : ExtTreeMap ℕ (List (Reply ℕ))).map (fun _ w => w.map (Reply.map
      (value { nonce := nonce, procs := procs }))) = ∅ := by
    apply ExtTreeMap.ext_getElem?
    intro n
    simp
  refine ⟨rfl, rfl, rfl, ?_, fun n => .nil, fun n m a ha => ?_, fun n r hr => ?_, fun w hw => ?_⟩
  · simp only [Rpcs.map, hempty]
  · cases ha
  · cases hr
  · cases hw

/-- The tables after a check, and the buffers it frees. -/
theorem check_keeps (hv : s.check h = some (tab, v)) :
    (s.tables.bufs h.cltNonce.toNat).Perm (s.frees h v ++ tab.bufs h.cltNonce.toNat) ∧
    (∀ m, h.cltNonce.toNat ≠ m → tab.window m = s.tables.window m) ∧
    (∀ e ∈ tab.window h.cltNonce.toNat, e ∈ s.tables.window h.cltNonce.toNat ∨ e.buf = none) ∧
    ∀ b sz, v = .done b sz → ∃ e ∈ tab.window h.cltNonce.toNat, e.buf = b ∧ e.sz = sz := by
  unfold check dispatchCheck at hv
  unfold frees
  by_cases hn : h.cltNonce = 0
  · rw [if_neg (by simp [hn])] at hv
    cases hv
    rw [if_pos hn]
    exact ⟨List.Perm.refl _, fun _ _ => rfl, fun e he => Or.inl he, fun b sz hb => by cases hb⟩
  · rw [if_pos (toNat_ne_zero hn)] at hv
    rw [if_neg hn]
    obtain ⟨hwin,hdone⟩ := check_window hv
    refine ⟨check_bufs hv, fun m hm => (check_frame hm hv).1, fun e he => ?_, fun b sz hb => ?_⟩
    · exact (hwin e he).imp id (fun heq => by rw [heq])
    · obtain ⟨e,-,he,-,hbuf,hsz⟩ := hdone b sz hb
      exact ⟨e, he, hbuf, hsz⟩

theorem check_subset (hv : s.check h = some (tab, v)) {m : ℕ} {e : Reply ℕ}
    (he : e ∈ tab.window m) (hbuf : e.buf = some a) : e ∈ s.tables.window m := by
  obtain ⟨-,hother,hown,-⟩ := check_keeps hv
  by_cases hm : h.cltNonce.toNat = m
  · subst hm
    obtain he | hnone := hown e he
    · exact he
    · rw [hbuf] at hnone
      cases hnone
  · rwa [← hother m hm]

theorem check_bufs_subset (hv : s.check h = some (tab, v)) {m : ℕ} (ha : a ∈ tab.bufs m) :
    a ∈ s.tables.bufs m := by
  obtain ⟨e,he,hbuf⟩ := List.mem_filterMap.mp ha
  exact List.mem_filterMap.mpr ⟨e, check_subset hv he hbuf, hbuf⟩

theorem Refines.check_nodup (hr : s.Refines t P) (hv : s.check h = some (tab, v)) (m : ℕ) :
    (tab.bufs m).Nodup := by
  obtain ⟨hperm,hother,-,-⟩ := check_keeps hv
  by_cases hm : h.cltNonce.toNat = m
  · subst hm
    exact (List.nodup_append.mp (hperm.nodup_iff.mp (hr.nodup _))).2.1
  · unfold Rpcs.bufs
    rw [hother m hm]
    exact hr.nodup m

/-- What stays in the tables is not freed. -/
theorem Refines.not_freed (hr : s.Refines t P) (hv : s.check h = some (tab, v)) {m : ℕ}
    (ha : a ∈ tab.bufs m) : a ∉ s.frees h v := by
  obtain ⟨hperm,-,-,-⟩ := check_keeps hv
  intro hfree
  have hown : a ∈ s.tables.bufs h.cltNonce.toNat :=
    hperm.mem_iff.mpr (List.mem_append_left _ hfree)
  -- no other table has the buffer, and in its own it has one entry
  obtain rfl : h.cltNonce.toNat = m := hr.apart _ _ a hown (check_bufs_subset hv ha)
  have hnodup := hperm.nodup_iff.mp (hr.nodup _)
  exact (List.nodup_append.mp hnodup).2.2 a hfree a ha rfl

theorem Refines.check (hr : s.Refines t P) (hv : s.check h = some (tab, v)) :
    t.check h = some (tab.map s.value, v.map s.value) := by
  unfold BufferedServer.check dispatchCheck at hv
  unfold Server.check dispatchCheck
  rw [hr.tables]
  split_ifs at hv ⊢
  · rw [check_map, hv]
    rfl
  · cases hv
    rfl

theorem Refines.free (hr : s.Refines t P) (hv : s.check h = some (tab, v)) (r : List ReqHeader) :
    Refines { s.free (s.frees h v) with
      tables := tab, running := r, sending := picked h v ++ (s.free (s.frees h v)).sending }
      { t with tables := tab.map s.value, running := r }
      (fun c b => P c b ∨ c = h.cltNonce ∧ b ∈ Server.answers h (v.map s.value)) := by
  have hheap : ∀ m, ∀ a ∈ tab.bufs m, (s.free (s.frees h v)).heap a = s.heap a :=
    fun m a ha => if_neg (hr.not_freed hv ha)
  have hstored : ∀ n, ∀ e ∈ tab.window n, ∀ a, e.buf = some a →
      ∃ b, (s.free (s.frees h v)).heap a = some b ∧ e.sz = b.length := by
    intro n e he a hbuf
    rw [hheap n a (List.mem_filterMap.mpr ⟨e, he, hbuf⟩)]
    exact hr.stored n e (check_subset hv he hbuf) a hbuf
  obtain ⟨-,-,-,hdone⟩ := check_keeps hv
  refine ⟨hr.nonce, hr.procs, rfl, map_congr (fun m a ha => ?_), hr.check_nodup hv,
    fun n m a hn hm => hr.apart n m a (check_bufs_subset hv hn) (check_bufs_subset hv hm), hstored,
    fun w hw hf => ?_⟩
  · exact congrArg (Option.getD · []) (hheap m a ha).symm
  · obtain hw | hw := List.mem_append.mp hw
    · -- the duplicate is answered with the buffer of its entry
      unfold picked at hw
      split at hw
      · rename_i a sz _
        obtain rfl := List.mem_singleton.mp hw
        obtain ⟨e,he,hbuf,hsz⟩ := hdone _ _ rfl
        obtain ⟨b,hb,hlen⟩ := hstored _ e he a hbuf
        have hval : s.value a = b := by
          rw [hheap _ a (List.mem_filterMap.mpr ⟨e, he, hbuf⟩)] at hb
          rw [value, hb, Option.getD_some]
        refine ⟨b, hb, hsz.symm.trans hlen, Or.inr ⟨rfl, ?_⟩⟩
        simp [RpcState.map, Server.answers, hval]
      · cases hw
    · obtain ⟨w₀,hw₀,rfl⟩ := List.mem_map.mp hw
      by_cases hfree : w₀.buf ∈ s.frees h v
      · rw [if_pos hfree] at hf
        cases hf
      · rw [if_neg hfree] at hf ⊢
        obtain ⟨b,hb,hsz,hp⟩ := hr.pending w₀ hw₀ hf
        exact ⟨b, (if_neg hfree).trans hb, hsz, Or.inl hp⟩

/-- `dispatch` does the same, and sends no more at once. -/
theorem Refines.dispatch (hr : s.Refines t P) (hd : s.dispatch h = some (s', out)) :
    ∃ t' out', t.dispatch h = some (t', out') ∧ (∀ b ∈ out, b ∈ out') ∧
      s'.Refines t' (fun c b => P c b ∨ c = h.cltNonce ∧ b ∈ out') := by
  have hrefuses : t.refuses h ↔ s.plain.refuses h := by
    unfold Server.refuses
    rw [hr.nonce]
    rfl
  unfold BufferedServer.dispatch at hd
  unfold Server.dispatch
  split_ifs at hd with href hproc
  · cases hd
    exact ⟨t, _, if_pos (hrefuses.mpr href), fun b hb => hb, hr.mono (fun c b => Or.inl)⟩
  · have hproc' : ¬ ¬ (h.proc = bindProc ∨ t.procs h.proc) := by
      rw [hr.procs]
      exact not_not_intro hproc
    rw [if_neg (mt hrefuses.mp href), if_neg hproc']
    obtain ⟨⟨tab,v⟩,hv,hres⟩ := Option.map_eq_some_iff.mp hd
    cases hres
    rw [hr.check hv]
    refine ⟨_, _, rfl, fun b hb => ?_, ?_⟩
    · unfold ownAnswers at hb
      split at hb
      · exact hb
      · cases hb
    · simp only [map_eq_new, hr.running]
      exact hr.free hv _

/-- A buffer that holds nothing is in no table. -/
theorem Refines.fresh (hr : s.Refines t P) (ha : s.heap a = none) (n : ℕ) :
    a ∉ s.tables.bufs n := by
  intro hn
  obtain ⟨b,hb⟩ := hr.live hn
  rw [ha] at hb
  cases hb

/-- `add_reply` with a new buffer, which then waits to be sent. -/
theorem Refines.store (hr : s.Refines t P) (ha : s.heap a = none) {b : Bytes} (hs : s' = { s with
      tables := tab, running := s.running.erase h, heap := Function.update s.heap a (some b),
      sending := { req := h, buf := a, sz := b.length } :: s.sending })
    (htab : addReply s.tables h.cltNonce.toNat h.xid.toUInt32.toNat a b.length = some tab) :
    addReply t.tables h.cltNonce.toNat h.xid.toUInt32.toNat b b.length =
        some (tab.map s'.value) ∧
      s'.Refines { t with tables := tab.map s'.value, running := t.running.erase h }
        (fun c b' => P c b' ∨ c = h.cltNonce ∧ b' = b) := by
  have hself : s'.heap a = some b := hs ▸ Function.update_self _ _ _
  have hold : ∀ c, c ≠ a → s'.heap c = s.heap c :=
    fun c hc => hs ▸ Function.update_of_ne hc _ _
  have hfree := hr.fresh ha
  refine ⟨?_, ?_⟩
  · have htables : t.tables = s.tables.map s'.value := by
      rw [hr.tables]
      refine map_congr (fun n c hc => ?_)
      have hne : c ≠ a := fun heq => hfree n (heq ▸ hc)
      rw [value, value, hold c hne]
    have hval : s'.value a = b := by rw [value, hself, Option.getD_some]
    calc addReply t.tables h.cltNonce.toNat h.xid.toUInt32.toNat b b.length
        = addReply (s.tables.map s'.value) h.cltNonce.toNat h.xid.toUInt32.toNat (s'.value a)
            b.length := by rw [htables, hval]
      _ = (addReply s.tables h.cltNonce.toNat h.xid.toUInt32.toNat a b.length).map
            (Rpcs.map s'.value) := addReply_map
      _ = some (tab.map s'.value) := by rw [htab, Option.map_some]
  · subst hs
    refine ⟨hr.nonce, hr.procs, ?_, rfl, fun m => addReply_nodup htab (hfree _) (hr.nodup m),
      fun n m c hn hm => ?_, fun m e he c hc => ?_, fun w hw hf => ?_⟩
    · simp only [hr.running]
    · obtain ⟨hca,hnh⟩ | hn' := addReply_bufs htab hn
      · obtain ⟨-,hmh⟩ | hm' := addReply_bufs htab hm
        · exact hnh.trans hmh.symm
        · exact absurd (hca ▸ hm') (hfree m)
      · obtain ⟨hca,-⟩ | hm' := addReply_bufs htab hm
        · exact absurd (hca ▸ hn') (hfree n)
        · exact hr.apart n m c hn' hm'
    · obtain he' | ⟨hbuf,hsz⟩ := addReply_mem htab he
      · have hne : c ≠ a := by
          rintro rfl
          exact hfree m (List.mem_filterMap.mpr ⟨e, he', hc⟩)
        rw [hold c hne]
        exact hr.stored m e he' c hc
      · rw [hbuf] at hc
        cases hc
        exact ⟨b, hself, hsz⟩
    · obtain rfl | hw := List.mem_cons.mp hw
      · exact ⟨b, hself, rfl, Or.inr ⟨rfl, rfl⟩⟩
      · -- the buffer of another worker was not freed, so it holds something and is not the new one
        obtain ⟨b',hb',hsz,hp⟩ := hr.pending w hw hf
        have hne : w.buf ≠ a := by
          intro heq
          rw [heq, ha] at hb'
          cases hb'
        exact ⟨b', (hold _ hne).trans hb', hsz, Or.inl hp⟩

/-- The end of a handler does the same. -/
theorem Refines.reply (hr : s.Refines t P) (hd : s.reply h ret body a = some (s', out)) :
    ∃ t' b, t.reply h ret body = some (t', b) ∧ (∀ b' ∈ out, b' = b) ∧
      s'.Refines t' (fun c b' => P c b' ∨ c = h.cltNonce ∧ b' = b) := by
  unfold BufferedServer.reply at hd
  unfold Server.reply
  have hmay : t.mayReturn h ret body = s.plain.mayReturn h ret body := by
    unfold Server.mayReturn
    rw [hr.nonce]
    rfl
  split_ifs at hd with hrun hpos
  · obtain ⟨tab,htab,hres⟩ := Option.map_eq_some_iff.mp hd
    cases hres
    obtain ⟨hadd,hs'⟩ := hr.store hrun.2.2 rfl htab
    rw [if_pos ⟨hr.running ▸ hrun.1, hmay ▸ hrun.2.1⟩, if_pos hpos, hadd]
    exact ⟨_, _, rfl, fun b' hb' => (by cases hb'), hs'⟩
  · cases hd
    rw [if_pos ⟨hr.running ▸ hrun.1, hmay ▸ hrun.2.1⟩, if_neg hpos]
    refine ⟨_, _, rfl, fun b' hb' => List.mem_singleton.mp hb', ?_⟩
    refine ⟨hr.nonce, hr.procs, ?_, hr.tables, hr.nodup, hr.apart, hr.stored, fun w hw hf => ?_⟩
    · simp only [hr.running]
    · obtain ⟨b,hb,hsz,hp⟩ := hr.pending w hw hf
      exact ⟨b, hb, hsz, Or.inl hp⟩

/-- A worker whose buffer was not freed sends what was stored. -/
theorem Refines.send {c : UInt32} {b rest : Bytes} (hr : s.Refines t P) (hk : s.holds k = true)
    (hs : s.send k rest = some (s', c, b)) : P c b ∧ s'.Refines t P := by
  obtain ⟨w,hw,hs⟩ := Option.bind_eq_some_iff.mp hs
  obtain ⟨b',hb',hs⟩ := Option.bind_eq_some_iff.mp hs
  split_ifs at hs
  cases hs
  have hf : w.freed = false := by simpa [holds, hw] using hk
  obtain ⟨b₀,hb₀,hsz,hp⟩ := hr.pending w (List.mem_of_getElem? hw) hf
  obtain rfl : b' = b₀ := Option.some.inj (hb'.symm.trans hb₀)
  rw [hsz, List.take_left]
  refine ⟨hp, hr.nonce, hr.procs, hr.running, hr.tables, hr.nodup, hr.apart, hr.stored,
    fun u hu hfu => hr.pending u (List.mem_of_mem_eraseIdx hu) hfu⟩

end

end BufferedServer

end DisconnectedYfs.RPC
