import DisconnectedYfs.YFSOperationRules

/-! Runs of the file system: every operation under way is on a path of its own program, and what it
has been told of the extents it holds is still so. -/
namespace DisconnectedYfs.YFS
open Std

def Cache.Sized (m : Cache) : Prop := ∀ (l : ℕ) (e : Entry), m[l]? = some e → e.Sized

def Table.Sized (t : Table) : Prop :=
  ∀ (l : ℕ) (f : FInfo), t[l]? = some f → f.a.size = byteSize f.buf

/-- `attr.size` is right in every cache and at the server. -/
structure Sys.Sized (s : Sys) : Prop where
  copy : ∀ A, (s.client A).localExtent.Sized
  extent : s.table.Sized

section
variable {m m' : Cache} {t t' : Table} {now : UInt32} {l : ℕ}

theorem sized_insert {e : Entry} (h : m.Sized) (he : e.Sized) : Cache.Sized (m.insert l e) := by
  intro j e' hj
  rw [cache_getElem_insert] at hj
  split_ifs at hj
  · cases hj
    exact he
  · exact h j e' hj

theorem sized_erase (h : m.Sized) : Cache.Sized (m.erase l) := by
  intro j e hj
  rw [cache_getElem_erase] at hj
  split_ifs at hj
  exact h j e hj

theorem sized_finish (op : Access) (h : m.Sized) : (op.finish m l now).Sized := by
  intro j e hj
  obtain ⟨hother,hself⟩ := finish_entry op m l j now
  by_cases hjl : j = l
  · subst hjl
    rcases hm : m[j]? with _ | e₀
    · cases op with
      | getattr => exact h j e hj
      | get => simp [Access.finish, cache_touch_getElem, hm] at hj
      | rename name => simp [Access.finish, cache_setName_getElem, hm] at hj
    · obtain ⟨e',he',hext,hsz⟩ := hself e₀ hm
      rw [he'] at hj
      cases hj
      unfold Entry.Sized
      rw [hext, hsz]
      exact h j e₀ hm
  · rw [hother hjl] at hj
    exact h j e hj

theorem sized_put (buf : Str) (h : m.Sized) : (m.put l buf now).Sized := by
  intro j e hj
  by_cases hjl : l = j
  · subst hjl
    obtain ⟨e',he',-,hext,hsz,-⟩ := cache_put_self m l buf now
    rw [he'] at hj
    cases hj
    unfold Entry.Sized
    rw [hext, hsz]
  · rw [cache_put_other m buf now hjl] at hj
    exact h j e hj

theorem sized_flush (hm : m.Sized) (ht : t.Sized) (h : m.flush t l now = some (m', t')) :
    m'.Sized ∧ t'.Sized := by
  rcases cache_flush_cases h with ⟨-,rfl,rfl⟩ | ⟨e,-,-,rfl,hput⟩ | ⟨e,-,-,rfl,rfl⟩
  · refine ⟨hm, fun j f hj => ?_⟩
    rw [table_getElem_remove] at hj
    split_ifs at hj
    exact ht j f hj
  · refine ⟨sized_erase hm, fun j f hj => ?_⟩
    by_cases hjl : l = j
    · subst hjl
      obtain ⟨f',hf',hbuf,hsz,-⟩ := table_put_self hput
      rw [hf'] at hj
      cases hj
      rw [hbuf, hsz]
    · rw [table_put_other hput hjl] at hj
      exact ht j f hj
  · exact ⟨sized_erase hm, ht⟩

theorem sized_does {x y : Local} {mv : Move} (h : Does now x mv y) (hm : x.cache.Sized)
    (ht : x.table.Sized)
    (hbuf : ∀ l read buf op, x.th.calls = [.load l read buf op] →
      (x.table[l]?).map FInfo.buf = some buf) : y.cache.Sized ∧ y.table.Sized := by
  cases h with
  | flushed hc hf => exact sized_flush hm ht hf
  | hit => exact ⟨sized_finish _ hm, ht⟩
  | @loaded l op read buf f hc hf =>
    refine ⟨sized_finish _ (sized_insert hm ?_), ht⟩
    have hb : f.buf = buf := by simpa [hf] using hbuf l read buf op hc
    unfold Entry.Sized
    rw [← hb]
    exact ht l f hf
  | put => exact ⟨sized_put _ hm, ht⟩
  | removed => exact ⟨sized_erase hm, ht⟩
  | _ => exact ⟨hm, ht⟩

end

/-- Where a client is, if what it runs knows `K`: its process is gone, or it runs no operation, or
an operation is between two calls or in one. -/
inductive Fs.Standing (s : Fs) (A : ℕ) (K : Knowledge) : Prop
  | gone (h : (s.sys.client A).aborted = true)
  | idle (htask : s.task A = none) (hth : s.sys.thread A 0 = {}) (hK : K = fun _ => none)
  | ready {op p} (htask : s.task A = some ⟨op, p, false⟩) (hpath : Path op p K)
      (hc : (s.sys.thread A 0).calls = []) (ha : ((s.sys.client A).localAt s.sys.table 0).Agrees K)
      (hu : (s.sys.thread A 0).Owes p)
  | busy {op p} (htask : s.task A = some ⟨op, p, true⟩) (hpath : Path op p K)
      (hin : InCall K p ((s.sys.client A).localAt s.sys.table 0))

/-- The invariant of the file system, with what each client's operation knows. -/
structure Fs.Inv (s : Fs) (κ : ℕ → Knowledge) : Prop where
  ordered : s.sys.Ordered
  sized : s.sys.Sized
  standing : ∀ A, s.Standing A (κ A)
  single : ∀ A T, T ≠ 0 → s.sys.thread A T = {}

/-- The operation of a client and where it is. -/
def Fs.doing (s : Fs) (A : ℕ) : Option (Op × Prog) := (s.task A).map (fun j => (j.op, j.prog))

/-- The condition on the operations that a run starts. -/
def FsEvent.starts (P : Op → Bool) : FsEvent → Bool
  | .start _ op => P op
  | _ => true

/-- The client whose operation an event is about. -/
def FsEvent.actor : FsEvent → Option ℕ
  | .start A _ | .draw A _ _ | .call A | .finish A | .inner (.client A _ _) => some A
  | _ => none

/-- What a step is for the operations: one of them starts or ends, or gets an answer, or they all
stay where they are. -/
inductive Fs.Advance (s : Fs) (κ : ℕ → Knowledge) (s' : Fs) (κ' : ℕ → Knowledge) : FsEvent → Prop
  | start {A op} (hs : s.doing A = none)
      (hs' : s'.doing = Function.update s.doing A (some (op, op.prog)))
      (hκ : κ' = Function.update κ A (fun _ => none)) : Advance s κ s' κ' (.start A op)
  | act {A op p p' a K' e} (he : e.actor = some A) (hrun : (s.sys.client A).aborted = false)
      (hs : s.doing A = some (op, p)) (hpath : Path op p (κ A)) (hp : p.step a = some p')
      (hl : Learns (κ A) a K') (hs' : s'.doing = Function.update s.doing A (some (op, p')))
      (hκ : κ' = Function.update κ A K') (hrun' : (s'.sys.client A).aborted = false)
      (hagree : ((s'.sys.client A).localAt s'.sys.table 0).Agrees K') : Advance s κ s' κ' e
  | quiet {e} (hs' : s'.doing = s.doing) (hκ : κ' = κ)
      (hbusy : ∀ A, e = .call A → s'.sys.busy A) : Advance s κ s' κ' e
  | finish {A op r} (hs : s.doing A = some (op, .ret r))
      (hs' : s'.doing = Function.update s.doing A none) (hκ : κ' = κ) :
      Advance s κ s' κ' (.finish A)

section
variable {s s' : Sys} {A B T : ℕ} {e : Event} {m : Move} {K : Knowledge} {p : Prog}

theorem Sys.Ordered.loading (hs : s.Ordered) {l : ℕ} {read : Bool} {buf : Str} {op : Access}
    (hc : (s.thread A T).calls = [.load l read buf op]) :
    (s.table[l]?).map FInfo.buf = some buf := by
  obtain ⟨g,ht,ho⟩ := hs.lock l
  have hr : Role.loading read buf ∈ (s.thread A T).roles l := by
    apply List.mem_append_left
    rw [hc]
    simp
  have hgA := (agents_single (ht.agents A) rfl hr).1
  exact ((ho.bound A).loading _ _ _ hgA).2

theorem Sys.Ordered.one_role (hs : s.Ordered) (A T l : ℕ) :
    ((s.thread A T).roles l).length ≤ 1 := by
  obtain ⟨g,ht,-⟩ := hs.lock l
  rw [show (s.thread A T).roles l = slot (g A) T from ht.agents A T]
  unfold slot
  split
  · split_ifs <;> simp
  · simp

theorem inCall_simple {x : Local} (h : InCall K p x) : x.th.Simple := by
  cases h with
  | acquiring _ hc => exact Or.inr (Or.inl ⟨_, _, hc⟩)
  | releasing _ hc => exact Or.inr (Or.inr (Or.inl ⟨_, _, hc⟩))
  | loading _ hc => exact Or.inr (Or.inr (Or.inr ⟨_, _, _, _, hc⟩))

theorem inCall_busy {x : Local} (h : InCall K p x) : x.th.calls ≠ [] := by
  cases h with
  | acquiring _ hc | releasing _ hc | loading _ hc => simp [hc]

theorem inCall_move {x : Local} (h : InCall K p x) : p.move ≠ none := by
  cases h with
  | acquiring hp | releasing hp => simp [hp, Prog.move]
  | loading hm => simp [hm]

theorem client_others (h : s.step (.client A T m) = some s') (hB : B ≠ A) :
    s'.client B = s.client B := by
  simp only [Sys.step] at h
  split_ifs at h
  split at h
  · cases h
  · cases h
    exact (client_setClient s A B _).trans (if_neg hB.symm)
  · cases h
    exact (client_setClient s A B _).trans (if_neg hB.symm)
  · cases h
    rfl

theorem served_nil {th th' : Thread} (h : th.Served th') (hc : th.calls = []) : th' = th := by
  cases h with
  | same => rfl
  | acquire | release => cases hc

/-- A step of another client or of a message, for a client that does nothing by itself. -/
structure Outer (s s' : Sys) (A : ℕ) : Prop where
  aborted : (s'.client A).aborted = (s.client A).aborted
  thread : ∀ U, (s.thread A U).Served (s'.thread A U)
  held : ∀ T l, (s.thread A T).Has l →
    (s'.client A).localExtent[l]? = (s.client A).localExtent[l]? ∧ s'.table[l]? = s.table[l]?

theorem outer_step (hs : s.Ordered) (he : e.isInner = true ∨ ∃ B T m, e = .client B T m)
    (h : s.step e = some s') (hA : ∀ T m, e ≠ .client A T m) : Outer s s' A := by
  have hdis : ∀ B, e ≠ .disconnect B := by
    rintro B rfl
    rcases he with he | ⟨_,_,_,he⟩ <;> cases he
  have hheld := fun T l hl => held_frame (T := T) (l := l) hs hdis h hA hl
  by_cases hc : ∃ B T m, e = .client B T m
  · obtain ⟨B,T,m,rfl⟩ := hc
    have hAB : A ≠ B := by
      rintro rfl
      exact hA T m rfl
    have hsame := client_others h hAB
    refine ⟨by rw [hsame], fun U => ?_, hheld⟩
    rw [show s'.thread A U = s.thread A U by unfold Sys.thread; rw [hsame]]
    exact .same
  · have hinner : e.isInner = true := by
      rcases he with he | he
      · exact he
      · exact absurd he hc
    have hmsg := message_step hinner (fun B T m heq => hc ⟨B, T, m, heq⟩) h
    exact ⟨hmsg.aborted A, hmsg.thread A, hheld⟩

theorem outer_agrees (h : Outer s s' A) (hth : (s'.thread A 0).held = (s.thread A 0).held)
    (ha : ((s.client A).localAt s.table 0).Agrees K) :
    ((s'.client A).localAt s'.table 0).Agrees K := by
  refine ha.of_held (fun l => ?_) (fun l hl => ?_)
  · change (∃ r, (l, r) ∈ (s'.thread A 0).held) ↔ ∃ r, (l, r) ∈ (s.thread A 0).held
    rw [hth]
  · exact h.held 0 l (Or.inl ((ha.held l).mpr hl))

theorem served_same {th th' : Thread} (h : th.Served th') :
    th'.held = th.held ∧ th'.unlinking = th.unlinking := by
  cases h <;> exact ⟨rfl, rfl⟩

theorem served_acquire {th th' : Thread} {l : ℕ} {pc : AcquirePc} (h : th.Served th')
    (hc : th.calls = [.acquire l pc]) : ∃ pc', th'.calls = [.acquire l pc'] := by
  cases h with
  | same => exact ⟨pc, hc⟩
  | acquire pc' =>
    cases hc
    exact ⟨pc', rfl⟩
  | release => cases hc

theorem served_release {th th' : Thread} {l : ℕ} {pc : ReleasePc} (h : th.Served th')
    (hc : th.calls = [.release l pc]) : ∃ pc', th'.calls = [.release l pc'] := by
  cases h with
  | same => exact ⟨pc, hc⟩
  | release pc' =>
    cases hc
    exact ⟨pc', rfl⟩
  | acquire => cases hc

theorem served_load {th th' : Thread} {l : ℕ} {read : Bool} {buf : Str} {op : Access}
    (h : th.Served th') (hc : th.calls = [.load l read buf op]) : th' = th := by
  cases h with
  | same => rfl
  | acquire | release => cases hc

theorem outer_inCall (h : Outer s s' A) (hin : InCall K p ((s.client A).localAt s.table 0)) :
    InCall K p ((s'.client A).localAt s'.table 0) := by
  have hserved := h.thread 0
  obtain ⟨hheld,hunl⟩ := served_same hserved
  cases hin with
  | acquiring hp hc ha hu =>
    obtain ⟨pc',hc'⟩ := served_acquire hserved hc
    exact .acquiring hp hc' (outer_agrees h hheld ha) (hunl.trans hu)
  | releasing hp hc hk ha hu =>
    obtain ⟨pc',hc'⟩ := served_release hserved hc
    refine .releasing hp hc' hk (outer_agrees h hheld ha) ?_
    intro hn
    exact (hu (fun h0 => hn (hunl.trans h0))).trans hunl.symm
  | loading hm hc hk ha hu =>
    have hc' := (congrArg Thread.calls (served_load hserved hc)).trans hc
    exact .loading hm hc' hk (outer_agrees h hheld ha) (hunl.trans hu)

end

section
variable {s s' : Fs} {κ : ℕ → Knowledge} {A B : ℕ} {K K' : Knowledge} {p p' : Prog} {op : Op}

/-- Others take a step. -/
theorem standing_outer (h : s.Standing A K) (ho : Outer s.sys s'.sys A)
    (htask : s'.task A = s.task A) : s'.Standing A K := by
  cases h with
  | gone hab => exact .gone (ho.aborted.trans hab)
  | idle ht hth hK =>
    have := served_nil (ho.thread 0) (by rw [hth])
    exact .idle (htask.trans ht) (this.trans hth) hK
  | ready ht hpath hc ha hu =>
    have hth := served_nil (ho.thread 0) hc
    refine .ready (htask.trans ht) hpath (by rw [hth]; exact hc)
      (outer_agrees ho (by rw [hth]) ha) ?_
    rw [hth]
    exact hu
  | busy ht hpath hin => exact .busy (htask.trans ht) hpath (outer_inCall ho hin)

theorem outer_refl (s : Sys) (A : ℕ) : Outer s s A :=
  ⟨rfl, fun _ => .same, fun _ _ _ => ⟨rfl, rfl⟩⟩

/-- Before its thread makes a call of its own, a client that runs is between two calls. -/
theorem standing_ready (h : s.Standing A K) (hrun : (s.sys.client A).aborted = false)
    (htask : s.task A = some ⟨op, p, false⟩) :
    Path op p K ∧ (s.sys.thread A 0).calls = [] ∧
      ((s.sys.client A).localAt s.sys.table 0).Agrees K ∧ (s.sys.thread A 0).Owes p := by
  cases h with
  | gone hab =>
    rw [hrun] at hab
    cases hab
  | idle ht =>
    rw [htask] at ht
    cases ht
  | ready ht hpath hc ha hu =>
    rw [htask] at ht
    cases ht
    exact ⟨hpath, hc, ha, hu⟩
  | busy ht =>
    rw [htask] at ht
    cases ht

theorem standing_busy (h : s.Standing A K) (hrun : (s.sys.client A).aborted = false)
    (htask : s.task A = some ⟨op, p, true⟩) :
    Path op p K ∧ InCall K p ((s.sys.client A).localAt s.sys.table 0) := by
  cases h with
  | gone hab =>
    rw [hrun] at hab
    cases hab
  | idle ht =>
    rw [htask] at ht
    cases ht
  | ready ht =>
    rw [htask] at ht
    cases ht
  | busy ht hpath hin =>
    rw [htask] at ht
    cases ht
    exact ⟨hpath, hin⟩

theorem standing_simple (h : s.Standing A K) (hrun : (s.sys.client A).aborted = false) :
    (s.sys.thread A 0).Simple := by
  cases h with
  | gone hab =>
    rw [hrun] at hab
    cases hab
  | idle _ hth => exact Or.inl (by rw [hth])
  | ready _ _ hc => exact Or.inl hc
  | busy _ _ hin => exact inCall_simple hin

theorem step_running {s s' : Sys} {T : ℕ} {m : Move} (h : s.step (.client A T m) = some s') :
    (s.client A).aborted = false := by
  simp only [Sys.step] at h
  split_ifs at h with hab
  simp only [Bool.or_eq_true, not_or, Bool.not_eq_true] at hab
  exact hab.1

theorem sized_client {s s' : Sys} {m : Move} (hs : s.Ordered) (hz : s.Sized)
    (hsimple : (s.thread A 0).Simple) (hm : m ≠ .reconnect)
    (h : s.step (.client A 0 m) = some s') : s'.Sized := by
  obtain rfl | ⟨-,hc,ht,-⟩ | ⟨c',hc,hdoes,-⟩ := client_does hs hsimple hm h
  · refine ⟨fun C => ?_, hz.extent⟩
    rw [client_setClient]
    split_ifs with hC
    · exact hz.copy A
    · exact hz.copy C
  · refine ⟨fun C => ?_, by rw [ht]; exact hz.extent⟩
    rw [Sys.client, hc]
    exact hz.copy C
  · obtain ⟨h1,h2⟩ := sized_does hdoes (hz.copy A) hz.extent
      (fun l read buf op hcalls => hs.loading hcalls)
    refine ⟨fun C => ?_, h2⟩
    rw [hc]
    split_ifs
    · exact h1
    · exact hz.copy C

theorem sized_message {s s' : Sys} (hz : s.Sized) (h : Message s s') : s'.Sized := by
  rcases h.extents with ⟨hc,ht⟩ | ⟨o,l,cache,hf,hc⟩
  · exact ⟨fun C => by rw [hc]; exact hz.copy C, by rw [ht]; exact hz.extent⟩
  · obtain ⟨h1,h2⟩ := sized_flush (hz.copy o) hz.extent hf
    refine ⟨fun C => ?_, h2⟩
    rw [hc]
    split_ifs
    · exact h1
    · exact hz.copy C

theorem move_ne {m : Move} (hm : p.move = some m) : m ≠ .reconnect ∧ ∀ a b, m ≠ .turn a b := by
  cases p <;> cases hm <;> simp

/-- The thread's own call, for a client that goes on. -/
theorem own_call {sys : Sys} {m : Move} (h : s.Inv κ) (htask : s.task A = some ⟨op, p, false⟩)
    (hm : p.move = some m) (hsys : s.sys.step (.client A 0 m) = some sys)
    (hrun : (sys.client A).aborted = false) :
    Path op p (κ A) ∧ (Answered (κ A) p (sys.client A) sys.table ∨
      InCall (κ A) p ((sys.client A).localAt sys.table 0)) := by
  obtain ⟨hpath,hc,ha,hu⟩ := standing_ready (h.standing A) (step_running hsys) htask
  obtain ⟨hrec,hturn⟩ := move_ne hm
  refine ⟨hpath, ?_⟩
  obtain rfl | ⟨⟨a,b,rfl⟩,-⟩ | ⟨c',hc',hdoes,-⟩ := client_does h.ordered (Or.inl hc) hrec hsys
  · rw [client_setClient, if_pos rfl] at hrun
    cases hrun
  · exact absurd rfl (hturn a b)
  · rw [hc', if_pos rfl]
    exact call_does ha hu (h.sized.copy A) hm hc hdoes

/-- A step of the thread in a call. -/
theorem own_inner {sys : Sys} {m : Move} (h : s.Inv κ) (hm : (Event.client A 0 m).isInner = true)
    (htask : s.task A = some ⟨op, p, true⟩) (hsys : s.sys.step (.client A 0 m) = some sys)
    (hrun : (sys.client A).aborted = false) :
    Path op p (κ A) ∧ (Answered (κ A) p (sys.client A) sys.table ∨
      InCall (κ A) p ((sys.client A).localAt sys.table 0)) := by
  obtain ⟨hpath,hin⟩ := standing_busy (h.standing A) (step_running hsys) htask
  have hrec : m ≠ .reconnect := by
    rintro rfl
    cases hm
  refine ⟨hpath, ?_⟩
  have hord := h.ordered.step (fun B => by simp) hsys
  obtain rfl | ⟨-,hcl,ht,-⟩ | ⟨c',hc',hdoes,-⟩ :=
    client_does h.ordered (inCall_simple hin) hrec hsys
  · rw [client_setClient, if_pos rfl] at hrun
    cases hrun
  · right
    rw [Sys.client, hcl, ht]
    exact hin
  · have hone := fun l => hord.one_role A 0 l
    unfold Sys.thread at hone
    rw [hc', if_pos rfl] at hone ⊢
    exact inCall_does hin hone h.sized.extent
      (fun l read buf op hcalls => h.ordered.loading hcalls) hdoes

theorem not_answered {c : Client} {t : Table} (h : (c.thread 0).calls ≠ []) : ¬ Answered K p c t :=
  fun ha => h ha.1

/-- A client makes a step of its own; the rest of the invariant. -/
theorem inv_client {m : Move} (h : s.Inv κ) (hm : m ≠ .reconnect)
    (hsys : s.sys.step (.client A 0 m) = some s'.sys) (htask : ∀ B, B ≠ A → s'.task B = s.task B)
    (hA : s'.Standing A K) : s'.Inv (Function.update κ A K) := by
  have hsimple := standing_simple (h.standing A) (step_running hsys)
  refine ⟨h.ordered.step (fun B => by simp) hsys, sized_client h.ordered h.sized hsimple hm hsys,
    fun B => ?_, fun B T hT => ?_⟩
  · by_cases hB : B = A
    · subst hB
      rw [Function.update_self]
      exact hA
    · rw [Function.update_of_ne hB]
      refine standing_outer (h.standing B) ?_ (htask B hB)
      refine outer_step h.ordered (Or.inr ⟨A, 0, m, rfl⟩) hsys ?_
      rintro T m' heq
      cases heq
      exact hB rfl
  · by_cases hB : B = A
    · subst hB
      obtain heq | ⟨-,hcl,-⟩ | ⟨c',hc',-,hother,-⟩ := client_does h.ordered hsimple hm hsys
      · unfold Sys.thread
        rw [heq, client_setClient, if_pos rfl]
        exact h.single B T hT
      · unfold Sys.thread
        rw [Sys.client, hcl]
        exact h.single B T hT
      · unfold Sys.thread
        rw [hc', if_pos rfl, hother T hT]
        exact h.single B T hT
    · unfold Sys.thread
      rw [client_others hsys hB]
      exact h.single B T hT

theorem doing_eq {c : Bool} (h : s.task A = some ⟨op, p, c⟩) : s.doing A = some (op, p) := by
  simp [Fs.doing, h]

theorem doing_setTask (s : Fs) (A : ℕ) (j : Task) :
    (s.setTask A j).doing = Function.update s.doing A (some (j.op, j.prog)) := by
  funext B
  unfold Fs.doing
  rw [task_setTask, Function.update_apply]
  by_cases hB : A = B
  · rw [if_pos hB, if_pos hB.symm]
    rfl
  · rw [if_neg hB, if_neg (Ne.symm hB)]

/-- A call that has returned: the operation goes on and knows more. -/
theorem answered_advance {sys : Sys} {m : Move} {c : Bool} {e : FsEvent} (h : s.Inv κ)
    (he : e.actor = some A) (hrun : (sys.client A).aborted = false)
    (hm : m ≠ .reconnect) (hsys : s.sys.step (.client A 0 m) = some sys)
    (htask : s.task A = some ⟨op, p, c⟩) (hpath : Path op p (κ A))
    (ha : Answered (κ A) p (sys.client A) sys.table)
    (hp : p.step ((sys.client A).answer p) = some p') :
    ∃ κ', (({ s with sys := sys } : Fs).setTask A ⟨op, p', false⟩).Inv κ' ∧
      s.Advance κ (({ s with sys := sys } : Fs).setTask A ⟨op, p', false⟩) κ' e := by
  obtain ⟨hc,K',hl,hagree,hu⟩ := ha
  have htask' : (({ s with sys := sys } : Fs).setTask A ⟨op, p', false⟩).task A =
      some ⟨op, p', false⟩ := by
    rw [task_setTask, if_pos rfl]
  refine ⟨Function.update κ A K', ?_, ?_⟩
  · refine inv_client h hm hsys ?_ (.ready htask' (hpath.step hp hl) hc hagree (hu p' hp))
    intro B hB
    rw [task_setTask, if_neg hB.symm]
    rfl
  · exact .act he (step_running hsys) (doing_eq htask) hpath hp hl
      (doing_setTask _ A _) rfl hrun hagree

/-- Only the tasks change. -/
theorem inv_tasks {κ' : ℕ → Knowledge} (h : s.Inv κ) (hsys : s'.sys = s.sys)
    (hst : ∀ B, s'.task B = s.task B ∧ κ' B = κ B ∨ s'.Standing B (κ' B)) : s'.Inv κ' := by
  refine ⟨by rw [hsys]; exact h.ordered, by rw [hsys]; exact h.sized, fun B => ?_, ?_⟩
  · rcases hst B with ⟨htask,hκ⟩ | hB
    · rw [hκ]
      refine standing_outer (h.standing B) ?_ htask
      rw [hsys]
      exact outer_refl s.sys B
    · exact hB
  · rw [hsys]
    exact h.single

theorem inv_start (h : s.Inv κ) (htask : s.task A = none) (op : Op) :
    (s.setTask A ⟨op, op.prog, false⟩).Inv (Function.update κ A (fun _ => none)) := by
  refine inv_tasks h rfl fun B => ?_
  by_cases hB : B = A
  · subst hB
    right
    rw [Function.update_self]
    have htask' : (s.setTask B ⟨op, op.prog, false⟩).task B = some ⟨op, op.prog, false⟩ := by
      rw [task_setTask, if_pos rfl]
    cases h.standing B with
    | gone hab => exact .gone hab
    | idle _ hth =>
      refine .ready htask' .start (by rw [sys_setTask, hth]) ?_ ?_
      · refine ⟨fun l => ?_, by simp, by simp⟩
        have : ((s.sys.client B).localAt s.sys.table 0).th.held = [] := congrArg Thread.held hth
        simp [this]
      · intro hn
        rw [sys_setTask, hth] at hn
        exact absurd rfl hn
    | ready ht | busy ht =>
      rw [htask] at ht
      cases ht
  · left
    rw [task_setTask, if_neg (Ne.symm hB), Function.update_of_ne hB]
    exact ⟨rfl, rfl⟩

theorem inv_draw {a b mask : ℕ} {k : ℕ → Prog} (h : s.Inv κ)
    (htask : s.task A = some ⟨op, .alloc mask k, false⟩) :
    (s.setTask A ⟨op, .tryInum mask k (randNum a b ||| mask), false⟩).Inv κ := by
  refine inv_tasks h rfl fun B => ?_
  by_cases hB : B = A
  · subst hB
    right
    by_cases hab : (s.sys.client B).aborted = true
    · exact .gone hab
    obtain ⟨hpath,hc,ha,hu⟩ := standing_ready (h.standing B) (by simpa using hab) htask
    refine .ready (by rw [task_setTask, if_pos rfl])
      (hpath.step (a := .draw a b) rfl .draw) hc ha ?_
    intro hn
    have := hu.none rfl
    exact absurd this hn
  · left
    rw [task_setTask, if_neg (Ne.symm hB)]
    exact ⟨rfl, rfl⟩

theorem task_erase (s : Fs) (A B : ℕ) : ({ s with tasks := s.tasks.erase A } : Fs).task B =
    if A = B then none else s.task B := by
  simp only [Fs.task, ExtTreeMap.getElem?_erase, LawfulEqCmp.compare_eq_iff_eq]

theorem inv_finish {r : Except YErr Out} (h : s.Inv κ)
    (htask : s.task A = some ⟨op, .ret r, false⟩) :
    ({ s with tasks := s.tasks.erase A } : Fs).Inv κ := by
  refine inv_tasks h rfl fun B => ?_
  by_cases hB : A = B
  · subst hB
    right
    by_cases hab : (s.sys.client A).aborted = true
    · exact .gone hab
    obtain ⟨hpath,hc,ha,hu⟩ := standing_ready (h.standing A) (by simpa using hab) htask
    have hK : κ A = fun _ => none := by
      have := path_stands hpath
      generalize κ A = K at this
      cases this
      rfl
    have hheld : (s.sys.thread A 0).held = [] := by
      refine List.eq_nil_iff_forall_not_mem.mpr fun x hx => ?_
      exact (ha.held x.1).mp ⟨x.2, hx⟩ (congrFun hK x.1)
    refine .idle ((task_erase s A A).trans (if_pos rfl)) ?_ hK
    have hun := hu.none rfl
    show s.sys.thread A 0 = {}
    generalize s.sys.thread A 0 = th at hc hheld hun
    obtain ⟨calls,held,unlinking⟩ := th
    simp_all
  · exact Or.inl ⟨(task_erase s A B).trans (if_neg hB), rfl⟩

/-- A thread in no call does nothing by itself. -/
theorem inner_calls {sys : Sys} {m : Move} (hm : (Event.client A 0 m).isInner = true)
    (hsys : s.sys.step (.client A 0 m) = some sys) : (s.sys.thread A 0).calls ≠ [] := by
  intro hc
  have hc' : ((s.sys.client A).thread 0).calls = [] := hc
  simp only [Sys.step] at hsys
  split_ifs at hsys
  cases m with
  | turn a b => simp [Client.move, Client.turn, hc'] at hsys
  | wake => simp [Client.move, Client.wake, hc'] at hsys
  | loadAttr => simp [Client.move, Client.loadAttr, hc'] at hsys
  | _ => cases hm

/-- A call that does not return at once teaches nothing yet. -/
theorem inv_called {sys : Sys} {m : Move} (h : s.Inv κ) (htask : s.task A = some ⟨op, p, false⟩)
    (hm : p.move = some m) (hsys : s.sys.step (.client A 0 m) = some sys) (hbusy : sys.busy A) :
    (({ s with sys := sys } : Fs).setTask A ⟨op, p, true⟩).Inv κ := by
  have hA : (({ s with sys := sys } : Fs).setTask A ⟨op, p, true⟩).Standing A (κ A) := by
    by_cases hab : (sys.client A).aborted = true
    · exact .gone hab
    obtain ⟨hpath,ha | hin⟩ := own_call h htask hm hsys (by simpa using hab)
    · exact absurd ha (not_answered (hbusy.resolve_left hab))
    · exact .busy (by rw [task_setTask, if_pos rfl]) hpath hin
  have := inv_client h (move_ne hm).1 hsys (fun B hB => ?_) hA
  · rw [Function.update_eq_self] at this
    exact this
  · rw [task_setTask, if_neg hB.symm]
    rfl

theorem inv_inner {e : Event} {sys : Sys} (h : s.Inv κ) (he : e.isInner = true)
    (hsys : s.sys.step e = some sys)
    (hbusy : ∀ A m op p, e = .client A 0 m → s.task A = some ⟨op, p, true⟩ → p.move ≠ none →
      sys.busy A) : ({ s with sys := sys } : Fs).Inv κ := by
  by_cases hcl : ∃ A m, e = .client A 0 m
  · obtain ⟨A,m,rfl⟩ := hcl
    have hm : m ≠ .reconnect := by
      rintro rfl
      cases he
    have hA : ({ s with sys := sys } : Fs).Standing A (κ A) := by
      by_cases hab : (sys.client A).aborted = true
      · exact .gone hab
      -- only a call that is under way can be continued
      have hcalls := inner_calls he hsys
      cases h.standing A with
      | gone hab' =>
        rw [step_running hsys] at hab'
        cases hab'
      | idle _ hth =>
        rw [hth] at hcalls
        exact absurd rfl hcalls
      | ready _ _ hc => exact absurd hc hcalls
      | @busy op p htask hpath hin =>
        have hb := hbusy A m op p rfl htask (inCall_move hin)
        obtain ⟨hpath',ha | hin'⟩ := own_inner h he htask hsys (by simpa using hab)
        · exact absurd ha (not_answered (hb.resolve_left hab))
        · exact .busy htask hpath' hin'
    have hinv : { s with sys := sys }.Inv (Function.update κ A (κ A)) :=
      inv_client h hm hsys (fun _ _ => rfl) hA
    rw [Function.update_eq_self] at hinv
    exact hinv
  · have hne : ∀ A T m, e ≠ .client A T m := by
      rintro A T m rfl
      have hT : T = 0 := by
        cases m <;> first | cases he | exact of_decide_eq_true he
      exact hcl ⟨A, m, by rw [hT]⟩
    have hmsg := message_step he hne hsys
    have hdis : ∀ B, e ≠ .disconnect B := by
      rintro B rfl
      cases he
    refine ⟨h.ordered.step hdis hsys, sized_message h.sized hmsg, fun B => ?_, fun B T hT => ?_⟩
    · exact standing_outer (h.standing B)
        (outer_step h.ordered (Or.inl he) hsys (fun T m => hne B T m)) rfl
    · have := h.single B T hT
      exact (served_nil (hmsg.thread B T) (by rw [this])).trans this

/-- One step of the file system. -/
theorem inv_steps {e : FsEvent} (h : s.Inv κ) (hs : s.Steps e s') :
    ∃ κ', s'.Inv κ' ∧ s.Advance κ s' κ' e := by
  cases hs with
  | @start A op htask =>
    refine ⟨_, inv_start h htask op, .start ?_ (doing_setTask s A _) rfl⟩
    simp [Fs.doing, htask]
  | @draw A a b op mask k htask hrun =>
    refine ⟨κ, inv_draw h htask, ?_⟩
    obtain ⟨hpath,-,ha,-⟩ := standing_ready (h.standing A) hrun htask
    exact .act rfl hrun (doing_eq htask) hpath (a := .draw a b) rfl .draw
      (doing_setTask s A _) (Function.update_eq_self A κ).symm hrun ha
  | @called A op p m sys htask hm hsys hbusy =>
    refine ⟨κ, inv_called h htask hm hsys hbusy, .quiet ?_ rfl ?_⟩
    · rw [doing_setTask]
      exact Function.update_eq_self_iff.mpr (doing_eq htask).symm
    · rintro B heq
      cases heq
      exact hbusy
  | @answered A op p p' m sys htask hm hsys hidle hp =>
    obtain ⟨hab,hc⟩ := not_busy_iff.mp hidle
    obtain ⟨hpath,ha | hin⟩ := own_call h htask hm hsys hab
    · exact answered_advance h rfl hab (move_ne hm).1 hsys htask hpath ha hp
    · exact absurd hc (inCall_busy hin)
  | @returned A m op p p' sys he htask hsys hidle hp =>
    obtain ⟨hab,hc⟩ := not_busy_iff.mp hidle
    have hm : m ≠ .reconnect := by
      rintro rfl
      cases he
    obtain ⟨hpath,ha | hin⟩ := own_inner h he htask hsys hab
    · exact answered_advance h rfl hab hm hsys htask hpath ha hp
    · exact absurd hc (inCall_busy hin)
  | @finish A op r htask =>
    refine ⟨κ, inv_finish h htask, .finish (doing_eq htask) ?_ rfl⟩
    funext B
    unfold Fs.doing
    rw [task_erase, Function.update_apply]
    by_cases hB : A = B
    · rw [if_pos hB, if_pos hB.symm]
      rfl
    · rw [if_neg hB, if_neg (Ne.symm hB)]
  | @inner e sys he hsys hbusy =>
    exact ⟨κ, inv_inner h he hsys hbusy, .quiet rfl rfl (fun _ heq => by cases heq)⟩

theorem inv_init : Fs.init.Inv (fun _ _ => none) := by
  refine ⟨ordered_init, ⟨fun A l e h => ?_, fun l f h => ?_⟩, fun A => ?_, fun A T _ => ?_⟩
  · simp [Fs.init, Sys.client] at h
  · simp [Fs.init] at h
  · refine .idle ?_ ?_ rfl
    · simp [Fs.init, Fs.task]
    · simp [Fs.init, Sys.thread, Sys.client, Client.thread]
  · simp [Fs.init, Sys.thread, Sys.client, Client.thread]

theorem inv_run {es : List FsEvent} (h : Fs.run es = some s) : ∃ κ, s.Inv κ := by
  refine TraceSystem.run_invariant (I := fun s => ∃ κ, Fs.Inv s κ) ?_ ⟨_, inv_init⟩ h
  rintro s e s' ⟨κ,hinv⟩ hstep
  obtain ⟨κ',hinv',-⟩ := inv_steps hinv (fs_steps hstep)
  exact ⟨κ', hinv'⟩

end

end DisconnectedYfs.YFS
