import DisconnectedYfs.RPCReplyWindow

/-! At-most-once execution. The window forgets a request as soon as the client acknowledges it,
and the high-water mark only refuses what lies strictly below it, so exactly one kind of duplicate
is run again: the one whose id is the highest acknowledgement seen. -/
namespace DisconnectedYfs.RPC
open Std TraceSystem

/-- The ids the window of client `n` remembers. -/
def Rpcs.remembered (s : Rpcs) (n : ℕ) : List ℕ := (s.window n).map Reply.xid

abbrev Ordered (w : List Reply) : Prop := w.Pairwise (fun a b => a.xid ≤ b.xid)

theorem scan_sublist {β : Type} (x r : ℕ) (w : List (Reply β)) :
    ((scan x r w).1 ++ (scan x r w).2).Sublist w := by
  induction w with
  | nil => exact List.Sublist.slnil
  | cons e w ih =>
    unfold scan
    split_ifs
    · exact ih.cons e
    · exact ih.cons_cons e
    · exact List.Sublist.refl _

theorem mem_scan_front (x r : ℕ) (w : List Reply) (hw : Ordered w) (e : Reply) :
    e ∈ (scan x r w).1 ↔ e ∈ w ∧ e.xid < x ∧ r < e.xid := by
  induction w with
  | nil => simp [scan]
  | cons a w ih =>
    obtain ⟨ha,hw⟩ := List.pairwise_cons.mp hw
    have ih := ih hw
    unfold scan
    split_ifs with h1 h2
    · rw [ih]
      grind
    · simp only [List.mem_cons, ih]
      grind
    · have hb : ∀ b ∈ w, ¬ b.xid < x := fun b hb => by have := ha b hb; omega
      grind

theorem mem_scan_rest (x r : ℕ) (w : List Reply) (hw : Ordered w) (e : Reply) :
    e ∈ (scan x r w).2 ↔ e ∈ w ∧ x ≤ e.xid := by
  induction w with
  | nil => simp [scan]
  | cons a w ih =>
    obtain ⟨ha,hw⟩ := List.pairwise_cons.mp hw
    have ih := ih hw
    unfold scan
    split_ifs with h1 h2
    · rw [ih]
      grind
    · rw [ih]
      grind
    · have hb : ∀ b ∈ w, x ≤ b.xid := fun b hb => by have := ha b hb; omega
      grind

/-- With the loop's postcondition the classification inserts the request in its place, and says
`NEW` exactly when no entry carried its id. -/
theorem classify_spec (x : ℕ) (front rest : List Reply) (ho : Ordered (front ++ rest))
    (hf : ∀ e ∈ front, e.xid ≤ x) (hr : ∀ e ∈ rest, x ≤ e.xid) :
    Ordered (classify x front rest).1 ∧
    (∀ y, y ∈ (classify x front rest).1.map Reply.xid ↔
      y = x ∨ y ∈ (front ++ rest).map Reply.xid) ∧
    ((classify x front rest).2 = .new ↔ x ∉ rest.map Reply.xid) := by
  unfold classify
  split
  · refine ⟨?_, ?_, by simp⟩
    · simp only [Ordered, List.append_nil] at ho ⊢
      refine List.pairwise_append.mpr ⟨ho, List.pairwise_singleton _ _, ?_⟩
      intro a ha b hb
      rw [List.mem_singleton.mp hb]
      exact hf a ha
    · intro y
      simp [or_comm]
  · rename_i a w
    obtain ⟨hof,hor,hfr⟩ := List.pairwise_append.mp ho
    obtain ⟨haw,-⟩ := List.pairwise_cons.mp hor
    split_ifs with h1 h2
    · refine ⟨?_, ?_, ?_⟩
      · refine List.pairwise_append.mpr ⟨hof, List.pairwise_cons.mpr ⟨hr, hor⟩, ?_⟩
        intro b hb c hc
        rcases List.mem_cons.mp hc with rfl | hc
        · exact hf b hb
        · exact hfr b hb c hc
      · intro y
        simp only [List.map_append, List.map_cons, List.mem_append, List.mem_cons]
        tauto
      · simp only [List.map_cons, List.mem_cons, true_iff, not_or, List.mem_map, not_exists,
          not_and]
        refine ⟨by omega, fun b hb => ?_⟩
        have := haw b hb
        omega
    all_goals
      have hax : a.xid = x := by have := hr a List.mem_cons_self; omega
      refine ⟨ho, fun y => ?_, by simp [hax]⟩
      constructor
      · exact Or.inr
      · rintro (rfl | h)
        · simp [hax]
        · exact h

theorem window_insert {β : Type} (w : ExtTreeMap ℕ (List (Reply β))) (h : ExtTreeMap ℕ ℕ)
    (n m : ℕ) (l : List (Reply β)) :
    Rpcs.window ⟨w.insert n l, h⟩ m = if n = m then l else Rpcs.window ⟨w, h⟩ m := by
  simp only [Rpcs.window, ExtTreeMap.getElem?_insert, LawfulEqCmp.compare_eq_iff_eq]
  split_ifs <;> rfl

theorem highest_insert {β : Type} (w : ExtTreeMap ℕ (List (Reply β))) (h : ExtTreeMap ℕ ℕ)
    (n m : ℕ) (x : ℕ) :
    Rpcs.highest ⟨w, h.insert n x⟩ m = if n = m then x else Rpcs.highest ⟨w, h⟩ m := by
  simp only [Rpcs.highest, ExtTreeMap.getElem?_insert, LawfulEqCmp.compare_eq_iff_eq]
  split_ifs <;> rfl

/-- What one accepted request does to its own client's window and mark. -/
structure CheckSpec (s s' : Rpcs) (n x r : ℕ) (v : RpcState) : Prop where
  rep_lt : r < x
  highest : s'.highest n = if s.window n = [] then r else max (s.highest n) r
  nonempty : s'.window n ≠ []
  ordered : Ordered (s'.window n)
  verdict : (x < s'.highest n ∧ v = .forgotten ∧ s'.window n = s.window n) ∨
    (s'.highest n ≤ x ∧ (v = .new ↔ x ∉ s.remembered n) ∧
      ∀ y, y ∈ s'.remembered n ↔ y = x ∨ y ∈ s.remembered n ∧ r < y)

theorem check_spec {s s' : Rpcs} {n x r : ℕ} {v : RpcState} (ho : Ordered (s.window n))
    (h : checkduplicateAndUpdate s n x r = some (s', v)) : CheckSpec s s' n x r v := by
  unfold checkduplicateAndUpdate at h
  split_ifs at h with hlt
  by_cases hw : s.window n = []
  · -- the iterator is the end of the list, so the request enters the window twice
    simp only [hw, if_true, Nat.lt_irrefl, if_false, Nat.not_lt_of_lt hlt, scan,
      List.append_nil, classify, Option.some.injEq, Prod.mk.injEq] at h
    obtain ⟨rfl,rfl⟩ := h
    have hwin := window_insert s.replyWindow (s.highestXidRep.insert n r) n n
      [{ xid := x }, { xid := x }]
    rw [if_pos rfl] at hwin
    simp only [List.cons_append, List.nil_append] at *
    refine ⟨hlt, ?_, by simp [hwin], by simp [hwin], Or.inr ⟨?_, ?_, ?_⟩⟩
    · rw [highest_insert, if_pos rfl, if_pos hw]
    · rw [highest_insert, if_pos rfl]
      exact Nat.le_of_lt hlt
    · simp [Rpcs.remembered, hw]
    · intro y
      simp [Rpcs.remembered, hwin, hw]
  · have hmax : (if r > s.highest n then r else s.highest n) = max (s.highest n) r := by
      split_ifs <;> omega
    simp only [hw, if_false, List.nil_append, hmax] at h
    split_ifs at h with hx
    · simp only [Option.some.injEq, Prod.mk.injEq] at h
      obtain ⟨rfl,rfl⟩ := h
      have hwin := window_insert s.replyWindow (s.highestXidRep.insert n (max (s.highest n) r))
        n n (s.window n)
      rw [if_pos rfl] at hwin
      refine ⟨hlt, ?_, by rw [hwin]; exact hw, by rw [hwin]; exact ho, Or.inl ⟨?_, rfl, hwin⟩⟩
      · rw [highest_insert, if_pos rfl, if_neg hw]
      · rw [highest_insert, if_pos rfl]
        exact hx
    · simp only [Option.some.injEq, Prod.mk.injEq] at h
      obtain ⟨rfl,rfl⟩ := h
      have hs := scan_sublist x r (s.window n)
      obtain ⟨hord,hmem,hnew⟩ := classify_spec x (scan x r (s.window n)).1
        (scan x r (s.window n)).2 (ho.sublist hs)
        (fun e he => Nat.le_of_lt ((mem_scan_front x r _ ho e).mp he).2.1)
        (fun e he => ((mem_scan_rest x r _ ho e).mp he).2)
      have hwin := window_insert s.replyWindow (s.highestXidRep.insert n (max (s.highest n) r))
        n n (classify x (scan x r (s.window n)).1 (scan x r (s.window n)).2).1
      rw [if_pos rfl] at hwin
      refine ⟨hlt, ?_, ?_, by rw [hwin]; exact hord, Or.inr ⟨?_, ?_, ?_⟩⟩
      · rw [highest_insert, if_pos rfl, if_neg hw]
      · rw [hwin]
        intro he
        have := (hmem x).mpr (Or.inl rfl)
        simp [he] at this
      · rw [highest_insert, if_pos rfl]
        omega
      · rw [hnew]
        simp only [Rpcs.remembered, List.mem_map, mem_scan_rest x r _ ho]
        grind
      · intro y
        rw [Rpcs.remembered, hwin, hmem]
        simp only [Rpcs.remembered, List.map_append, List.mem_append, List.mem_map,
          mem_scan_front x r _ ho, mem_scan_rest x r _ ho]
        grind

/-- A request of one client leaves every other client's tables alone. -/
theorem check_frame {β : Type} {s s' : Rpcs β} {n m x r : ℕ} {v : RpcState β} (hne : n ≠ m)
    (h : checkduplicateAndUpdate s n x r = some (s', v)) :
    s'.window m = s.window m ∧ s'.highest m = s.highest m := by
  unfold checkduplicateAndUpdate at h
  dsimp only at h
  repeat' split at h
  all_goals cases h
  all_goals exact ⟨by rw [window_insert, if_neg hne]; rfl, by rw [highest_insert, if_neg hne]; rfl⟩

theorem fillReply_xids {x : ℕ} {b : Bytes} {sz : ℕ} {w w' : List Reply}
    (h : fillReply x b sz w = some w') : w'.map Reply.xid = w.map Reply.xid := by
  induction w generalizing w' with
  | nil => simp [fillReply] at h
  | cons a w ih =>
    unfold fillReply at h
    split_ifs at h with ha
    · cases h
      rfl
    · obtain ⟨u,hu,rfl⟩ := Option.map_eq_some_iff.mp h
      simp only [List.map_cons, ih hu]

/-- `add_reply` stores a buffer and nothing else: no id enters or leaves a window. -/
theorem addReply_frame {s s' : Rpcs} {n m x : ℕ} {b : Bytes} {sz : ℕ}
    (h : addReply s n x b sz = some s') :
    s'.remembered m = s.remembered m ∧ s'.highest m = s.highest m := by
  unfold addReply at h
  split_ifs at h
  obtain ⟨w,hw,rfl⟩ := Option.map_eq_some_iff.mp h
  refine ⟨?_, rfl⟩
  simp only [Rpcs.remembered]
  rw [show Rpcs.window { s with replyWindow := s.replyWindow.insert n w } m =
    if n = m then w else s.window m from window_insert s.replyWindow s.highestXidRep n m w]
  split_ifs with hnm
  · subst hnm
    exact fillReply_xids hw
  · rfl

/-! ### Histories of one client -/

/-- Client `n` sent request `x`. -/
def Requested (n x : ℕ) (es : List Event) : Prop := ∃ r, Event.request n x r ∈ es

/-- No request of client `n` acknowledged more than `x`. -/
def AckedUpTo (n x : ℕ) (es : List Event) : Prop := ∀ y r, Event.request n y r ∈ es → r ≤ x

/-- Request `x` of client `n` arrived, and later a request acknowledging at least `x`. -/
def AckedAfter (n x : ℕ) (es : List Event) : Prop :=
  ∃ p q, es = p ++ q ∧ Requested n x p ∧ ∃ y r, Event.request n y r ∈ q ∧ x ≤ r

/-- Request `x` of client `n` arrives again at a moment when `x` is the highest acknowledgement
received, and was acknowledged after an earlier arrival. -/
def RepeatedAtMark (n x : ℕ) (es : List Event) : Prop :=
  ∃ p q r, es = p ++ Event.request n x r :: q ∧ AckedAfter n x p ∧ AckedUpTo n x p

section snoc
variable {n x : ℕ} {es : List Event} {e : Event}

theorem requested_snoc :
    Requested n x (es ++ [e]) ↔ Requested n x es ∨ ∃ r, e = .request n x r := by
  simp only [Requested, List.mem_append, List.mem_singleton]
  grind

theorem ackedUpTo_snoc :
    AckedUpTo n x (es ++ [e]) ↔ AckedUpTo n x es ∧ ∀ y r, e = .request n y r → r ≤ x := by
  simp only [AckedUpTo, List.mem_append, List.mem_singleton]
  grind

theorem ackedAfter_snoc :
    AckedAfter n x (es ++ [e]) ↔
      AckedAfter n x es ∨ Requested n x es ∧ ∃ y r, e = .request n y r ∧ x ≤ r := by
  constructor
  · rintro ⟨p,q,hpq,hp,y,r,hq,hr⟩
    rcases List.eq_nil_or_concat q with rfl | ⟨q',a,rfl⟩
    · simp at hq
    · rw [List.concat_eq_append, ← List.append_assoc] at hpq
      obtain ⟨rfl,ha⟩ := List.append_inj' hpq rfl
      cases ha
      rw [List.concat_eq_append, List.mem_append, List.mem_singleton] at hq
      rcases hq with hq | hq
      · exact Or.inl ⟨p, q', rfl, hp, y, r, hq, hr⟩
      · obtain ⟨r',hr'⟩ := hp
        exact Or.inr ⟨⟨r', List.mem_append_left _ hr'⟩, y, r, hq.symm, hr⟩
  · rintro (⟨p,q,rfl,hp,y,r,hq,hr⟩ | ⟨hreq,y,r,rfl,hr⟩)
    · exact ⟨p, q ++ [e], by simp, hp, y, r, by simp [hq], hr⟩
    · exact ⟨es, [.request n y r], rfl, hreq, y, r, by simp, hr⟩

theorem repeatedAtMark_snoc :
    RepeatedAtMark n x (es ++ [e]) ↔
      RepeatedAtMark n x es ∨ (∃ r, e = .request n x r) ∧ AckedAfter n x es ∧ AckedUpTo n x es := by
  constructor
  · rintro ⟨p,q,r,hpq,ha,hu⟩
    rcases List.eq_nil_or_concat q with rfl | ⟨q',a,rfl⟩
    · obtain ⟨rfl,he⟩ := List.append_inj' hpq rfl
      cases he
      exact Or.inr ⟨⟨r, rfl⟩, ha, hu⟩
    · rw [List.concat_eq_append, ← List.cons_append, ← List.append_assoc] at hpq
      obtain ⟨rfl,he⟩ := List.append_inj' hpq rfl
      exact Or.inl ⟨p, q', r, rfl, ha, hu⟩
  · rintro (⟨p,q,r,rfl,ha,hu⟩ | ⟨⟨r,rfl⟩,ha,hu⟩)
    · exact ⟨p, q ++ [e], r, by simp, ha, hu⟩
    · exact ⟨es, [], r, by simp, ha, hu⟩

end snoc

theorem executions_snoc (n x : ℕ) (s : Rpcs) (es : List Event) (e : Event) {t : Rpcs}
    (h : run step s es = some t) :
    executions n x s (es ++ [e]) =
      executions n x s es + if executes t n x e then 1 else 0 := by
  induction es generalizing s with
  | nil =>
    cases h
    simp only [List.nil_append, executions, Nat.zero_add]
    cases step t e <;> rfl
  | cons a es ih =>
    obtain ⟨s',hs',hrest⟩ := Option.bind_eq_some_iff.mp h
    simp only [List.cons_append, executions, hs', ih s' hrest, Nat.add_assoc]

/-- What the tables and the history of client `n` say about its request `x`, executed `k` times. -/
structure Tracked (n x : ℕ) (es : List Event) (s : Rpcs) (k : ℕ) : Prop where
  ordered : (s.remembered n).Pairwise (· ≤ ·)
  fresh : s.remembered n = [] → ∀ y r, Event.request n y r ∉ es
  reps_le : AckedUpTo n (s.highest n) es
  highest_le : AckedUpTo n x es → s.remembered n ≠ [] → s.highest n ≤ x
  executed : x ∈ s.remembered n → 1 ≤ k
  requested : 1 ≤ k → Requested n x es
  acked : 1 ≤ k → x ∉ s.remembered n → AckedAfter n x es
  twice : 2 ≤ k → RepeatedAtMark n x es
  once : AckedUpTo n x es → Requested n x es → 1 ≤ k
  gone : AckedUpTo n x es → AckedAfter n x es → x ∉ s.remembered n ∨ 2 ≤ k
  repeated : RepeatedAtMark n x es → 2 ≤ k

theorem AckedAfter.requested {n x : ℕ} {es : List Event} (h : AckedAfter n x es) :
    Requested n x es := by
  obtain ⟨p,q,rfl,⟨r,hr⟩,-⟩ := h
  exact ⟨r, List.mem_append_left _ hr⟩

theorem tracked_init (n x : ℕ) : Tracked n x [] {} 0 := by
  have hw : Rpcs.remembered {} n = [] := by simp [Rpcs.remembered, Rpcs.window]
  have ha : ¬ AckedAfter n x [] := fun h => by simpa [Requested] using h.requested
  refine ⟨by simp [hw], by simp, by simp [AckedUpTo], by simp [hw], by simp [hw], by simp,
    by simp, by simp, by simp [Requested], fun _ h => absurd h ha, ?_⟩
  rintro ⟨p,q,r,hpq,-⟩
  simp at hpq

/-- Events that do not concern client `n` change nothing that is tracked for it. -/
theorem Tracked.frame {n x k : ℕ} {es : List Event} {s s' : Rpcs} {e : Event}
    (h : Tracked n x es s k) (he : ∀ y r, e ≠ .request n y r)
    (hr : s'.remembered n = s.remembered n) (hh : s'.highest n = s.highest n) :
    Tracked n x (es ++ [e]) s' k := by
  have hreq : Requested n x (es ++ [e]) ↔ Requested n x es := by
    rw [requested_snoc]
    simp [he]
  have hup (y : ℕ) : AckedUpTo n y (es ++ [e]) ↔ AckedUpTo n y es := by
    rw [ackedUpTo_snoc]
    simp [he]
  have haft : AckedAfter n x (es ++ [e]) ↔ AckedAfter n x es := by
    rw [ackedAfter_snoc]
    simp [he]
  have hrep : RepeatedAtMark n x (es ++ [e]) ↔ RepeatedAtMark n x es := by
    rw [repeatedAtMark_snoc]
    simp [he]
  refine ⟨hr ▸ h.ordered, ?_, ?_, ?_, hr ▸ h.executed, ?_, ?_, ?_, ?_, ?_, ?_⟩
  · intro h0 y r hm
    rcases List.mem_append.mp hm with hm | hm
    · exact h.fresh (hr ▸ h0) y r hm
    · exact he y r (List.mem_singleton.mp hm).symm
  · rw [hup, hh]
    exact h.reps_le
  · rw [hup, hh, hr]
    exact h.highest_le
  · rw [hreq]
    exact h.requested
  · rw [hr, haft]
    exact h.acked
  · rw [hrep]
    exact h.twice
  · rw [hup, hreq]
    exact h.once
  · rw [hup, haft, hr]
    exact h.gone
  · rw [hrep]
    exact h.repeated

theorem remembered_eq_nil {s : Rpcs} {n : ℕ} : s.remembered n = [] ↔ s.window n = [] :=
  List.map_eq_nil_iff

theorem CheckSpec.highest_ge {s s' : Rpcs} {n y r : ℕ} {v : RpcState}
    (hc : CheckSpec s s' n y r v) : r ≤ s'.highest n := by
  rw [hc.highest]
  split_ifs <;> omega

/-- One request of the client itself. The window's membership test and the mark decide together;
a forgotten request changes neither the window nor the count. -/
theorem Tracked.request {n x y r k : ℕ} {es : List Event} {s s' : Rpcs} {v : RpcState}
    (h : Tracked n x es s k) (hc : CheckSpec s s' n y r v) :
    Tracked n x (es ++ [.request n y r]) s' (k + if y = x ∧ v = .new then 1 else 0) := by
  have hmono : AckedUpTo n (s'.highest n) es := by
    intro z q hz
    have hle := h.reps_le z q hz
    rw [hc.highest]
    split_ifs with hw
    · exact absurd hz (h.fresh (remembered_eq_nil.mpr hw) z q)
    · omega
  have hup (z : ℕ) : AckedUpTo n z (es ++ [.request n y r]) ↔ AckedUpTo n z es ∧ r ≤ z := by
    rw [ackedUpTo_snoc]
    grind
  have hmark : AckedUpTo n x (es ++ [.request n y r]) → s'.highest n ≤ x := by
    intro hx
    obtain ⟨hes,hr⟩ := (hup x).mp hx
    rw [hc.highest]
    split_ifs with hw
    · exact hr
    · have := h.highest_le hes (mt remembered_eq_nil.mp hw)
      omega
  have hreq : Requested n x (es ++ [.request n y r]) ↔ Requested n x es ∨ y = x := by
    rw [requested_snoc]
    grind
  have haft : AckedAfter n x (es ++ [.request n y r]) ↔
      AckedAfter n x es ∨ Requested n x es ∧ x ≤ r := by
    rw [ackedAfter_snoc]
    grind
  have hrep : RepeatedAtMark n x (es ++ [.request n y r]) ↔
      RepeatedAtMark n x es ∨ y = x ∧ AckedAfter n x es ∧ AckedUpTo n x es := by
    rw [repeatedAtMark_snoc]
    grind
  have hlt := hc.rep_lt
  -- a request at or above the mark is classified by membership alone
  have hnew : s'.highest n ≤ y → (v = .new ↔ y ∉ s.remembered n) ∧
      ∀ z, z ∈ s'.remembered n ↔ z = y ∨ z ∈ s.remembered n ∧ r < z := by
    intro hy
    rcases hc.verdict with ⟨hf,-⟩ | ⟨-,hv⟩
    · omega
    · exact hv
  have hold : y < s'.highest n → v ≠ .new ∧ s'.remembered n = s.remembered n := by
    intro hy
    rcases hc.verdict with ⟨-,rfl,hw⟩ | ⟨hge,-⟩
    · exact ⟨by simp, by rw [Rpcs.remembered, hw, Rpcs.remembered]⟩
    · omega
  refine ⟨List.pairwise_map.mpr hc.ordered, ?_, (hup _).mpr ⟨hmono, hc.highest_ge⟩,
    fun hx _ => hmark hx, ?_, ?_, ?_, ?_, ?_, ?_, ?_⟩
  · intro h0
    exact absurd (remembered_eq_nil.mp h0) hc.nonempty
  · intro hx
    have := h.executed
    grind
  · rw [hreq]
    intro hk
    by_cases hk0 : 1 ≤ k
    · exact Or.inl (h.requested hk0)
    · grind
  · rw [haft]
    intro hk hx
    have hex := h.executed
    have hac := h.acked
    have hrq := h.requested
    grind
  · rw [hrep]
    intro hk
    by_cases hk2 : 2 ≤ k
    · exact Or.inl (h.twice hk2)
    · have hyx : y = x ∧ v = .new := by grind
      have hge : s'.highest n ≤ y := by
        by_contra hlt'
        exact (hold (by omega)).1 hyx.2
      have hk1 : 1 ≤ k := by grind
      have hnm : x ∉ s.remembered n := hyx.1 ▸ ((hnew hge).1.mp hyx.2)
      exact Or.inr ⟨hyx.1, h.acked hk1 hnm, fun z q hz => Nat.le_trans (hmono z q hz) (hyx.1 ▸ hge)⟩
  · intro hx hq
    have hm := hmark hx
    have hex := h.executed
    have hon := h.once ((hup x).mp hx).1
    rcases hreq.mp hq with hq | rfl
    · have := hon hq
      omega
    · have := hnew hm
      grind
  · intro hx ha
    have hm := hmark hx
    obtain ⟨hes,hrx⟩ := (hup x).mp hx
    rcases haft.mp ha with ha | ⟨-,hxr⟩
    · have hon := h.once hes ha.requested
      rcases h.gone hes ha with hg | hg
      · by_cases hyx : y = x
        · have := hnew (hyx ▸ hm)
          grind
        · have := hnew
          have := hold
          grind
      · exact Or.inr (by omega)
    · have := hnew (by omega)
      exact Or.inl (by grind)
  · intro hR
    rcases hrep.mp hR with hR | ⟨rfl,ha,hes⟩
    · have := h.repeated hR
      omega
    · have hon := h.once hes ha.requested
      have hm := hnew (hmark ((hup y).mpr ⟨hes, by omega⟩))
      rcases h.gone hes ha with hg | hg <;> grind

/-- Along every run each request's count is tracked. -/
theorem tracked_run {n x : ℕ} (hn : n ≠ 0) {es : List Event} {s : Rpcs}
    (hrun : run step {} es = some s) : Tracked n x es s (executions n x {} es) := by
  refine run_history (I := fun es s => Tracked n x es s (executions n x {} es))
    (tracked_init n x) ?_ hrun
  intro fs e a b hfs hI hstep
  rw [executions_snoc n x {} fs e hfs]
  cases e with
  | reply m z buf sz =>
    obtain ⟨hr,hh⟩ := addReply_frame (m := n) hstep
    exact hI.frame (by simp) hr hh
  | request m z r =>
    simp only [step, dispatchCheck] at hstep
    by_cases hm : m = n
    · subst hm
      rw [if_pos hn] at hstep
      obtain ⟨⟨s',v⟩,hcheck,rfl⟩ := Option.map_eq_some_iff.mp hstep
      have hc := check_spec (List.pairwise_map.mp hI.ordered) hcheck
      have hex : executes a m x (.request m z r) = true ↔ z = x ∧ v = .new := by
        simp [executes, dispatchCheck, hn, hcheck]
      simp only [hex]
      exact hI.request hc
    · have hex : executes a n x (.request m z r) = false := by simp [executes, hm]
      rw [hex]
      split_ifs at hstep with hm0
      · obtain ⟨⟨s',v⟩,hcheck,rfl⟩ := Option.map_eq_some_iff.mp hstep
        obtain ⟨hw,hh⟩ := check_frame hm hcheck
        exact hI.frame (by simp [hm]) (by rw [Rpcs.remembered, hw, Rpcs.remembered]) hh
      · cases hstep
        exact hI.frame (by simp [hm]) rfl rfl

/-- A request is executed at most once exactly when it is never repeated at the mark. -/
theorem executions_le_one_iff {n x : ℕ} (hn : n ≠ 0) {es : List Event} {s : Rpcs}
    (hrun : run step {} es = some s) :
    executions n x {} es ≤ 1 ↔ ¬ RepeatedAtMark n x es := by
  have h := tracked_run (x := x) hn hrun
  constructor
  · intro hle hR
    have := h.repeated hR
    omega
  · intro hR
    by_contra hlt
    exact hR (h.twice (by omega))

/-- Every request of every at-most-once client is executed at most once, in a run, if and only if
no request of the run is repeated at its client's mark. -/
theorem at_most_once_iff_not_repeated_at_mark {es : List Event} {s : Rpcs}
    (hrun : run step {} es = some s) :
    (∀ n x, n ≠ 0 → executions n x {} es ≤ 1) ↔
      ∀ n x, n ≠ 0 → ¬ RepeatedAtMark n x es := by
  constructor
  · intro h n x hn
    exact (executions_le_one_iff hn hrun).mp (h n x hn)
  · intro h n x hn
    exact (executions_le_one_iff hn hrun).mpr (h n x hn)

/-- A retransmission of a request that is still remembered is not executed again. -/
theorem retransmission_executed_once :
    ∃ s, run step {} [.request 1 1 0, .request 1 1 0] = some s ∧
      ∀ n x, n ≠ 0 → executions n x {} [.request 1 1 0, .request 1 1 0] ≤ 1 := by
  obtain ⟨s,hs⟩ := Option.isSome_iff_exists.mp
    (show (run step {} [.request 1 1 0, .request 1 1 0]).isSome = true by decide +kernel)
  refine ⟨s, hs, (at_most_once_iff_not_repeated_at_mark hs).mpr ?_⟩
  rintro n x - ⟨p,q,r,hpq,⟨a,b,rfl,⟨r',hr'⟩,y,r'',hb,hle⟩,-⟩
  have hmem (e : Event) (he : e ∈ a ++ b) : e = .request 1 1 0 := by
    have : e ∈ [Event.request 1 1 0, .request 1 1 0] := by
      rw [hpq]
      exact List.mem_append_left _ he
    simpa using this
  have hx := hmem _ (List.mem_append_left b hr')
  have hy := hmem _ (List.mem_append_right a hb)
  grind

/-- Retransmissions carry the acknowledgement of the original. -/
def Consistent (es : List Event) : Prop :=
  ∀ n x r r', Event.request n x r ∈ es → Event.request n x r' ∈ es → r = r'

/-- Request 1 is answered, request 2 acknowledges it, and a late copy of request 1 arrives. -/
def lateCopy : List Event :=
  [.request 1 1 0, .reply 1 1 [7] 1, .request 1 2 1, .request 1 1 0]

theorem late_copy_executed_twice :
    Consistent lateCopy ∧ (run step {} lateCopy).isSome = true ∧
      executions 1 1 {} lateCopy = 2 := by
  refine ⟨?_, by decide +kernel, by decide +kernel⟩
  intro n x r r' h h'
  simp only [lateCopy, List.mem_cons, List.not_mem_nil, or_false] at h h'
  grind

end DisconnectedYfs.RPC
