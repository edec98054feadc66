import DisconnectedYfs.RPCAtMostOnce

/-! What the reply window of a client looks like. A client's first request enters its window twice,
and a request whose id is the highest acknowledgement seen is remembered although it has been
acknowledged; both last until a later request acknowledges them. Otherwise the window is strictly
increasing and holds nothing that has been acknowledged. -/
namespace DisconnectedYfs.RPC
open Std TraceSystem

/-- A call of `checkduplicate_and_update` or of `add_reply`, for any nonce. -/
def call (s : Rpcs) : Event → Option Rpcs
  | .request n xid xidRep => (checkduplicateAndUpdate s n xid xidRep).map Prod.fst
  | .reply n xid b sz => addReply s n xid b sz

def Event.nonce : Event → ℕ
  | .request n _ _ | .reply n _ _ _ => n

/-- Each remembered id occurs once, in order, and has not been acknowledged. -/
structure WindowExact (es : List Event) (s : Rpcs) (n : ℕ) : Prop where
  increasing : (s.remembered n).Pairwise (· < ·)
  unacked : ∀ x ∈ s.remembered n, ∀ y r, Event.request n y r ∈ es → r < x

/-- Since request `x` of client `n` came after the events `p` with `P p`, nothing has acknowledged
it. -/
def UnackedSince (n x : ℕ) (P : List Event → Prop) (es : List Event) : Prop :=
  ∃ p r q, es = p ++ Event.request n x r :: q ∧ P p ∧ ∀ y r', Event.request n y r' ∈ q → r' < x

/-- No request of client `n` has come. -/
def Unseen (n : ℕ) (p : List Event) : Prop := ∀ y r, Event.request n y r ∉ p

/-- The highest acknowledgement of client `n` is `x`. -/
def HighestAck (n x : ℕ) (p : List Event) : Prop :=
  (∃ y, Event.request n y x ∈ p) ∧ ∀ y r, Event.request n y r ∈ p → r ≤ x

/-- Some request of client `n` that was its first, or whose id was the highest acknowledgement when
it came, has not been acknowledged since. -/
def Lingers (n : ℕ) (es : List Event) : Prop :=
  ∃ x, UnackedSince n x (Unseen n) es ∨ UnackedSince n x (HighestAck n x) es

section
variable {n m x y r : ℕ} {s s' : Rpcs} {v : RpcState} {es : List Event} {e : Event}
  {P : List Event → Prop}

theorem UnackedSince.snoc (h : UnackedSince n x P es) (he : ∀ y r, e = .request n y r → r < x) :
    UnackedSince n x P (es ++ [e]) := by
  obtain ⟨p,r,q,rfl,hp,hq⟩ := h
  refine ⟨p, r, q ++ [e], by simp, hp, ?_⟩
  intro y r' hmem
  rcases List.mem_append.mp hmem with hmem | hmem
  · exact hq y r' hmem
  · exact he y r' (List.mem_singleton.mp hmem).symm

theorem unackedSince_last (hp : P es) : UnackedSince n x P (es ++ [.request n x r]) :=
  ⟨es, r, [], rfl, hp, fun _ _ h => by cases h⟩

/-- The loop drops the entries up to `r`, and nothing else. -/
theorem scan_count (w : List Reply) (hw : Ordered w) (hr : r < x) :
    (((scan x r w).1 ++ (scan x r w).2).map Reply.xid).count y =
      if y ≤ r then 0 else (w.map Reply.xid).count y := by
  induction w with
  | nil => simp [scan]
  | cons a w ih =>
    obtain ⟨ha,hw⟩ := List.pairwise_cons.mp hw
    have ih := ih hw
    by_cases h1 : a.xid < x
    · by_cases h2 : a.xid ≤ r
      · simp only [scan, h1, h2, if_true, ih, List.map_cons]
        split_ifs with hy
        · rfl
        · rw [List.count_cons_of_ne (by omega)]
      · simp only [scan, h1, h2, if_true, if_false, List.cons_append, List.map_cons,
          List.count_cons, ih]
        split_ifs with hy ha'
        · have : a.xid = y := by simpa using ha'
          omega
        · rfl
        all_goals rfl
    · -- nothing from here on is below the request
      simp only [scan, h1, if_false, List.nil_append]
      split_ifs with hy
      · rw [List.count_eq_zero]
        intro hmem
        obtain ⟨b,hb,rfl⟩ := List.mem_map.mp hmem
        rcases List.mem_cons.mp hb with rfl | hb
        · omega
        · have := ha b hb
          omega
      · rfl

theorem classify_count (front rest : List Reply) (hr : ∀ e ∈ rest, x ≤ e.xid)
    (ho : Ordered rest) :
    ((classify x front rest).1.map Reply.xid).count y = ((front ++ rest).map Reply.xid).count y +
      if y = x ∧ x ∉ rest.map Reply.xid then 1 else 0 := by
  have hinsert : ∀ w : List Reply, ((front ++ { xid := x } :: w).map Reply.xid).count y =
      ((front ++ w).map Reply.xid).count y + if y = x then 1 else 0 := by
    intro w
    simp only [List.map_append, List.map_cons, List.count_append, List.count_cons, beq_iff_eq,
      eq_comm (a := x)]
    omega
  unfold classify
  split
  · simpa using hinsert []
  · rename_i a w
    by_cases h1 : a.xid > x
    · have hnot : x ∉ (a :: w).map Reply.xid := by
        intro hmem
        obtain ⟨b,hb,hbx⟩ := List.mem_map.mp hmem
        rcases List.mem_cons.mp hb with rfl | hb
        · omega
        · have := (List.pairwise_cons.mp ho).1 b hb
          omega
      rw [if_pos h1, hinsert (a :: w)]
      simp only [hnot, not_false_eq_true, and_true]
    · have hax : a.xid = x := by
        have := hr a List.mem_cons_self
        omega
      have hsame : (if a.xid > x then (front ++ { xid := x } :: a :: w, RpcState.new)
          else if a.cbPresent then (front ++ a :: w, .done a.buf a.sz)
          else (front ++ a :: w, .inProgress)).1 = front ++ a :: w := by
        rw [if_neg h1]
        split_ifs <;> rfl
      rw [hsame]
      simp [hax]

/-- How often the ids are remembered after a request that is not the client's first. -/
theorem check_count (ho : Ordered (s.window n)) (hw : s.window n ≠ [])
    (h : checkduplicateAndUpdate s n x r = some (s', v)) (hx : s'.highest n ≤ x) :
    (s'.remembered n).count y = (if y ≤ r then 0 else (s.remembered n).count y) +
      if y = x ∧ x ∉ s.remembered n then 1 else 0 := by
  have hspec := check_spec ho h
  unfold checkduplicateAndUpdate at h
  simp only [hspec.rep_lt, if_true, hw, if_false, List.nil_append] at h
  generalize (if r > s.highest n then r else s.highest n) = mark at h
  split_ifs at h with hlt
  · obtain ⟨rfl,-⟩ := Prod.mk.inj (Option.some.inj h)
    rw [highest_insert, if_pos rfl] at hx
    omega
  · obtain ⟨rfl,-⟩ := Prod.mk.inj (Option.some.inj h)
    have hs := scan_sublist x r (s.window n)
    have hcount := classify_count (x := x) (y := y) (scan x r (s.window n)).1
      (scan x r (s.window n)).2 (fun e he => ((mem_scan_rest x r _ ho e).mp he).2)
      (List.pairwise_append.mp (ho.sublist hs)).2.1
    have hmem : x ∈ (scan x r (s.window n)).2.map Reply.xid ↔ x ∈ s.remembered n := by
      simp only [Rpcs.remembered, List.mem_map, mem_scan_rest x r _ ho]
      grind
    unfold Rpcs.remembered
    rw [window_insert, if_pos rfl, hcount, scan_count _ ho hspec.rep_lt]
    simp only [hmem]
    rfl

end

/-- What a client's window has become along a run: an id is remembered twice only if the first
request of the client lingers, and the highest acknowledgement only if a request with that id
does. -/
structure WindowShape (n : ℕ) (es : List Event) (s : Rpcs) : Prop where
  ordered : (s.remembered n).Pairwise (· ≤ ·)
  unseen : s.remembered n = [] ↔ Unseen n es
  highest : s.remembered n ≠ [] → HighestAck n (s.highest n) es
  above : ∀ x ∈ s.remembered n, s.highest n ≤ x
  first : ∀ x, 2 ≤ (s.remembered n).count x → UnackedSince n x (Unseen n) es
  mark : s.highest n ∈ s.remembered n →
    UnackedSince n (s.highest n) (HighestAck n (s.highest n)) es

section
variable {n m x y r : ℕ} {s s' : Rpcs} {v : RpcState} {es : List Event} {e : Event}

theorem remembered_eq_nil_iff : s.remembered n = [] ↔ s.window n = [] := List.map_eq_nil_iff

theorem ordered_iff : Ordered (s.window n) ↔ (s.remembered n).Pairwise (· ≤ ·) :=
  List.pairwise_map.symm

/-- A call that is not a request of the client. -/
theorem WindowShape.frame (h : WindowShape n es s) (hr : s'.remembered n = s.remembered n)
    (hh : s'.highest n = s.highest n) (he : ∀ y r, e ≠ .request n y r) :
    WindowShape n (es ++ [e]) s' := by
  have hmem : ∀ y r, Event.request n y r ∈ es ++ [e] ↔ Event.request n y r ∈ es := by
    intro y r
    rw [List.mem_append, List.mem_singleton]
    exact or_iff_left (fun heq => he y r heq.symm)
  have hsnoc : ∀ {x P}, UnackedSince n x P es → UnackedSince n x P (es ++ [e]) :=
    fun hx => hx.snoc (fun y r heq => absurd heq (he y r))
  refine ⟨?_, ?_, ?_, ?_, ?_, ?_⟩
  · rw [hr]
    exact h.ordered
  · rw [hr, h.unseen]
    simp only [Unseen, hmem]
  · rw [hr, hh]
    intro hne
    obtain ⟨⟨y,hy⟩,hle⟩ := h.highest hne
    exact ⟨⟨y, (hmem y _).mpr hy⟩, fun y r hyr => hle y r ((hmem y r).mp hyr)⟩
  · rw [hr, hh]
    exact h.above
  · rw [hr]
    exact fun x hx => hsnoc (h.first x hx)
  · rw [hr, hh]
    exact fun hx => hsnoc (h.mark hx)

/-- The iterator was taken before the first request entered the window. -/
theorem first_remembered (hw : s.window n = [])
    (hc : checkduplicateAndUpdate s n x r = some (s', v)) : s'.remembered n = [x, x] := by
  have hspec := check_spec (by rw [hw]; exact List.Pairwise.nil) hc
  unfold checkduplicateAndUpdate at hc
  simp only [hspec.rep_lt, if_true, hw, Nat.lt_irrefl, if_false, Nat.not_lt_of_lt hspec.rep_lt,
    scan, List.append_nil, classify, Option.some.injEq, Prod.mk.injEq] at hc
  obtain ⟨rfl,-⟩ := hc
  unfold Rpcs.remembered
  rw [window_insert, if_pos rfl]
  rfl

/-- The first request of a client. -/
theorem shape_first (h : WindowShape n es s) (hw : s.window n = [])
    (hc : checkduplicateAndUpdate s n x r = some (s', v)) :
    WindowShape n (es ++ [.request n x r]) s' := by
  have hun : Unseen n es := h.unseen.mp (remembered_eq_nil_iff.mpr hw)
  have hspec := check_spec (by rw [hw]; exact List.Pairwise.nil) hc
  have hhigh : s'.highest n = r := by rw [hspec.highest, if_pos hw]
  have hrem := first_remembered hw hc
  have hlt := hspec.rep_lt
  refine ⟨?_, ?_, ?_, ?_, ?_, ?_⟩
  · simp [hrem]
  · rw [hrem]
    refine ⟨(fun h => by cases h), fun hu => absurd ?_ (hu x r)⟩
    simp
  · intro _
    rw [hhigh]
    refine ⟨⟨x, by simp⟩, fun y r' hmem => ?_⟩
    rcases List.mem_append.mp hmem with hmem | hmem
    · exact absurd hmem (hun y r')
    · cases List.mem_singleton.mp hmem
      exact Nat.le_refl _
  · rw [hrem, hhigh]
    intro y hy
    simp only [List.mem_cons, List.not_mem_nil, or_false, or_self] at hy
    omega
  · intro y hy
    have hyx : y = x := by
      by_contra hne
      simp [hrem, Ne.symm hne] at hy
    subst hyx
    exact unackedSince_last hun
  · rw [hhigh, hrem]
    intro hmem
    simp only [List.mem_cons, List.not_mem_nil, or_false, or_self] at hmem
    omega

/-- A later request of a client. -/
theorem shape_later (h : WindowShape n es s) (hw : s.window n ≠ [])
    (hc : checkduplicateAndUpdate s n x r = some (s', v)) :
    WindowShape n (es ++ [.request n x r]) s' := by
  have ho := ordered_iff.mpr h.ordered
  have hspec := check_spec ho hc
  have hlt := hspec.rep_lt
  have hhigh : s'.highest n = max (s.highest n) r := by rw [hspec.highest, if_neg hw]
  have hack := h.highest (fun hn => hw (remembered_eq_nil_iff.mp hn))
  have hsnoc : ∀ {x' P}, r < x' → UnackedSince n x' P es →
      UnackedSince n x' P (es ++ [.request n x r]) := by
    intro x' P hr hx
    refine hx.snoc (fun y r' heq => ?_)
    cases heq
    exact hr
  have hseen : ¬ Unseen n (es ++ [.request n x r]) := fun hu => hu x r (by simp)
  have hacked : HighestAck n (s'.highest n) (es ++ [.request n x r]) := by
    rw [hhigh]
    refine ⟨?_, fun y r' hmem => ?_⟩
    · rcases Nat.le_total r (s.highest n) with hle | hle
      · rw [Nat.max_eq_left hle]
        exact hack.1.imp (fun y hy => List.mem_append_left _ hy)
      · rw [Nat.max_eq_right hle]
        exact ⟨x, by simp⟩
    · rcases List.mem_append.mp hmem with hmem | hmem
      · have := hack.2 y r' hmem
        omega
      · cases List.mem_singleton.mp hmem
        omega
  have hordered := ordered_iff.mp hspec.ordered
  have hempty : s'.remembered n = [] ↔ Unseen n (es ++ [.request n x r]) :=
    iff_of_false (fun hn => hspec.nonempty (remembered_eq_nil_iff.mp hn)) hseen
  rcases hspec.verdict with ⟨hforgot,-,hsame⟩ | ⟨hle,-,hmem⟩
  · -- `FORGOTTEN`: the window stays, and all of it is above the acknowledgement
    have hrem : s'.remembered n = s.remembered n := by
      unfold Rpcs.remembered
      rw [hsame]
    have hmark : s'.highest n = s.highest n := by omega
    refine ⟨hordered, hempty, fun _ => hacked, ?_, ?_, ?_⟩
    · rw [hrem, hmark]
      exact h.above
    · rw [hrem]
      intro y hy
      have := h.above y (List.count_pos_iff.mp (by omega))
      exact hsnoc (by omega) (h.first y hy)
    · rw [hrem, hmark]
      intro hy
      exact hsnoc (by omega) (h.mark hy)
  · refine ⟨hordered, hempty, fun _ => hacked, ?_, ?_, ?_⟩
    · intro y hy
      rcases (hmem y).mp hy with rfl | ⟨hy,hr⟩
      · exact hle
      · have := h.above y hy
        omega
    · intro y hy
      have hcount := check_count (y := y) ho hw hc hle
      rw [hcount] at hy
      split_ifs at hy with h1 h2 h3
      · omega
      · omega
      · have := List.count_eq_zero.mpr h3.2
        rw [← h3.1] at this
        omega
      · exact hsnoc (by omega) (h.first y (by omega))
    · intro hy
      rcases (hmem _).mp hy with hx | ⟨hin,hr⟩
      · by_cases hin : x ∈ s.remembered n
        · have := h.above x hin
          have hmark : s'.highest n = s.highest n := by omega
          rw [hmark] at hx ⊢
          exact hsnoc (by omega) (h.mark (hx ▸ hin))
        · -- a request with the highest acknowledgement as its id
          have hmark : s.highest n = x := by omega
          rw [hx]
          exact unackedSince_last (hmark ▸ hack)
      · have hmark : s'.highest n = s.highest n := by omega
        rw [hmark] at hin ⊢
        exact hsnoc (by omega) (h.mark hin)

theorem shape_step (h : WindowShape n es s) (hc : call s e = some s') :
    WindowShape n (es ++ [e]) s' := by
  cases e with
  | request m x r =>
    obtain ⟨⟨t,v⟩,hcheck,rfl⟩ := Option.map_eq_some_iff.mp hc
    by_cases hm : m = n
    · subst hm
      by_cases hw : s.window m = []
      · exact shape_first h hw hcheck
      · exact shape_later h hw hcheck
    · obtain ⟨hwin,hhigh⟩ := check_frame hm hcheck
      refine h.frame ?_ hhigh (fun y r heq => hm (congrArg Event.nonce heq))
      unfold Rpcs.remembered
      rw [hwin]
  | reply m x b sz =>
    obtain ⟨hrem,hhigh⟩ := addReply_frame (m := n) hc
    exact h.frame hrem hhigh (fun y r heq => by cases heq)

theorem shape_run (hrun : run call {} es = some s) (n : ℕ) : WindowShape n es s := by
  refine run_history (I := fun es s => WindowShape n es s) ?_ ?_ hrun
  · have hnil : Rpcs.remembered {} n = [] := rfl
    refine ⟨?_, ?_, fun hne => absurd hnil hne, ?_, ?_, ?_⟩ <;> rw [hnil]
    · exact List.Pairwise.nil
    · exact iff_of_true rfl (fun _ _ h => by cases h)
    · exact fun x hx => by cases hx
    · intro x hx
      simp at hx
    · exact fun hx => by cases hx
  · intro fs e t t' _ hI h
    exact shape_step hI h

/-- What has not been acknowledged stays in the window as often as it is there. -/
theorem count_step (ho : Ordered (s.window n)) (hw : s.window n ≠ []) (hc : call s e = some s')
    (he : ∀ y r, e = .request n y r → r < x) :
    Ordered (s'.window n) ∧ s'.window n ≠ [] ∧
      (s.remembered n).count x ≤ (s'.remembered n).count x := by
  have hsame : s'.remembered n = s.remembered n → Ordered (s'.window n) ∧ s'.window n ≠ [] ∧
      (s.remembered n).count x ≤ (s'.remembered n).count x := by
    intro hrem
    refine ⟨?_, ?_, Nat.le_of_eq (by rw [hrem])⟩
    · rw [ordered_iff, hrem, ← ordered_iff]
      exact ho
    · intro hnil
      exact hw (remembered_eq_nil_iff.mp (hrem ▸ remembered_eq_nil_iff.mpr hnil))
  cases e with
  | request m y r =>
    obtain ⟨⟨t,v⟩,hcheck,rfl⟩ := Option.map_eq_some_iff.mp hc
    by_cases hm : m = n
    · subst hm
      have hspec := check_spec ho hcheck
      have hr := he y r rfl
      refine ⟨hspec.ordered, hspec.nonempty, ?_⟩
      rcases hspec.verdict with ⟨-,-,hwin⟩ | ⟨hle,-,-⟩
      · have hrem : t.remembered m = s.remembered m := congrArg (List.map Reply.xid) hwin
        exact Nat.le_of_eq (congrArg (List.count x) hrem.symm)
      · rw [check_count ho hw hcheck hle, if_neg (by omega)]
        omega
    · refine hsame ?_
      unfold Rpcs.remembered
      rw [(check_frame hm hcheck).1]
  | reply m y b sz => exact hsame (addReply_frame (m := n) hc).1

theorem count_run {q : List Event} (ho : Ordered (s.window n)) (hw : s.window n ≠ [])
    (hrun : run call s q = some s') (hq : ∀ y r, .request n y r ∈ q → r < x) :
    (s.remembered n).count x ≤ (s'.remembered n).count x := by
  induction q generalizing s with
  | nil =>
    cases hrun
    exact Nat.le_refl _
  | cons e q ih =>
    obtain ⟨t,ht,hrest⟩ := Option.bind_eq_some_iff.mp hrun
    obtain ⟨ho',hw',hle⟩ := count_step ho hw ht
      (fun y r heq => hq y r (heq ▸ List.mem_cons_self))
    exact Nat.le_trans hle
      (ih ho' hw' hrest (fun y r hmem => hq y r (List.mem_cons_of_mem e hmem)))

/-- A request that is remembered and not acknowledged afterwards is there at the end. -/
theorem count_since {P : List Event → Prop} {k : ℕ} (hrun : run call {} es = some s)
    (h : UnackedSince n x P es)
    (hfirst : ∀ p r t t' v, run call {} p = some t → P p →
      checkduplicateAndUpdate t n x r = some (t', v) → k ≤ (t'.remembered n).count x) :
    k ≤ (s.remembered n).count x := by
  obtain ⟨p,r,q,rfl,hp,hq⟩ := h
  rw [run_append] at hrun
  obtain ⟨t,ht,hrest⟩ := Option.bind_eq_some_iff.mp hrun
  obtain ⟨t',ht',hrest⟩ := Option.bind_eq_some_iff.mp hrest
  obtain ⟨⟨t',v⟩,hcheck,rfl⟩ := Option.map_eq_some_iff.mp ht'
  have hspec := check_spec (ordered_iff.mpr (shape_run ht n).ordered) hcheck
  exact Nat.le_trans (hfirst p r t t' v ht hp hcheck)
    (count_run hspec.ordered hspec.nonempty hrest hq)

theorem not_exact_of_lingers (hrun : run call {} es = some s) (h : Lingers n es) :
    ¬ WindowExact es s n := by
  intro hexact
  obtain ⟨x,h | h⟩ := h
  · have htwo : 2 ≤ (s.remembered n).count x := by
      refine count_since hrun h ?_
      intro p r t t' v ht hp hcheck
      have hw := remembered_eq_nil_iff.mp ((shape_run ht n).unseen.mpr hp)
      rw [first_remembered hw hcheck]
      simp
    have hnodup : (s.remembered n).Nodup := hexact.increasing.imp (fun h => Nat.ne_of_lt h)
    have := List.nodup_iff_count.mp hnodup x
    omega
  · have hone : 1 ≤ (s.remembered n).count x := by
      refine count_since hrun h ?_
      intro p r t t' v ht hp hcheck
      have hshape := shape_run ht n
      have hspec := check_spec (ordered_iff.mpr hshape.ordered) hcheck
      obtain ⟨⟨y,hy⟩,hle⟩ := hp
      have hne : t.remembered n ≠ [] := fun hn => hshape.unseen.mp hn y x hy
      have hhigh : t.highest n = x := by
        obtain ⟨⟨z,hz⟩,hle'⟩ := hshape.highest hne
        have h1 := hle z _ hz
        have h2 := hle' y x hy
        omega
      have hrep := hspec.rep_lt
      have hmark := hspec.highest
      rw [if_neg (fun hw => hne (remembered_eq_nil_iff.mpr hw)), hhigh] at hmark
      rcases hspec.verdict with ⟨hlt,-,-⟩ | ⟨-,-,hmem⟩
      · omega
      · exact List.count_pos_iff.mpr ((hmem x).mpr (Or.inl rfl))
    obtain ⟨p,r,q,rfl,⟨⟨y,hy⟩,-⟩,-⟩ := h
    have := hexact.unacked x (List.count_pos_iff.mp hone) y x (List.mem_append_left _ hy)
    omega

theorem exact_of_not_lingers (hs : WindowShape n es s) (h : ¬ Lingers n es) :
    WindowExact es s n := by
  refine ⟨?_, ?_⟩
  · have hnodup : (s.remembered n).Nodup := by
      rw [List.nodup_iff_count]
      intro x
      by_contra hx
      exact h ⟨x, Or.inl (hs.first x (by omega))⟩
    exact (hs.ordered.and hnodup).imp (fun h => Nat.lt_of_le_of_ne h.1 h.2)
  · intro x hx y r hr
    have hack := (hs.highest (List.ne_nil_of_mem hx)).2 y r hr
    have habove := hs.above x hx
    by_contra hle
    have hmark : s.highest n = x := by omega
    exact h ⟨_, Or.inr (hs.mark (hmark ▸ hx))⟩

theorem call_frame (hc : call s e = some s') (hm : e.nonce ≠ m) : s'.window m = s.window m := by
  cases e with
  | request k x r =>
    obtain ⟨⟨t,v⟩,hcheck,rfl⟩ := Option.map_eq_some_iff.mp hc
    exact (check_frame hm hcheck).1
  | reply k x b sz =>
    simp only [call, addReply] at hc
    split_ifs at hc
    obtain ⟨w,hw,rfl⟩ := Option.map_eq_some_iff.mp hc
    exact (window_insert s.replyWindow s.highestXidRep k m w).trans (if_neg hm)

end

/-- After every call, in every sequence of calls that starts with an empty server: the client's
window is as it should be exactly if no request of the client lingers that was its first or had
been acknowledged when it came. -/
theorem reply_window_exact_iff {es : List Event} {e : Event} {s s' : Rpcs}
    (hrun : run call {} es = some s) (hc : call s e = some s') (n : ℕ) :
    (WindowExact (es ++ [e]) s' n ∧ ∀ m, e.nonce ≠ m → s'.window m = s.window m) ↔
      ¬ Lingers n (es ++ [e]) := by
  have hrun' : run call {} (es ++ [e]) = some s' := run_snoc.mpr ⟨s, hrun, hc⟩
  constructor
  · rintro ⟨hexact,-⟩ h
    exact not_exact_of_lingers hrun' h hexact
  · intro h
    exact ⟨exact_of_not_lingers (shape_run hrun' n) h, fun m hm => call_frame hc hm⟩

/-- The first request is acknowledged by the second. -/
theorem reply_window_exact_second : ∃ s s', run call {} [.request 7 1 0] = some s ∧
    call s (.request 7 2 1) = some s' ∧ s'.remembered 7 = [2] ∧
    (WindowExact ([.request 7 1 0] ++ [.request 7 2 1]) s' 7 ∧
        (∀ m, Event.nonce (.request 7 2 1) ≠ m → s'.window m = s.window m) ↔
      ¬ Lingers 7 ([.request 7 1 0] ++ [.request 7 2 1])) := by
  obtain ⟨s',hs',hrem⟩ := reaches_of_any call (fun s => s.remembered 7 = [2]) {}
    [.request 7 1 0, .request 7 2 1] (by decide +kernel)
  have hsnoc : run call {} ([.request 7 1 0] ++ [.request 7 2 1]) = some s' := hs'
  obtain ⟨s,hs,hc⟩ := run_snoc.mp hsnoc
  exact ⟨s, s', hs, hc, hrem, reply_window_exact_iff hs hc 7⟩

/-- After its first request a client's window has it twice. -/
theorem reply_window_twice : ∃ s, run call {} [.request 7 1 0] = some s ∧
    s.remembered 7 = [1, 1] ∧ ¬ (s.remembered 7).Pairwise (· < ·) :=
  reaches_of_any call (fun s => s.remembered 7 = [1, 1] ∧ ¬ (s.remembered 7).Pairwise (· < ·)) {}
    [.request 7 1 0] (by decide +kernel)

end DisconnectedYfs.RPC
