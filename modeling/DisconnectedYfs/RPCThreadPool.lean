import Mathlib.Algebra.BigOperators.Fin
import DisconnectedYfs.TraceSystem

/-! `ThrPool` and its bounded queue (`rpc/thr_pool.cc`, `rpc/fifo.h`). Every critical section of the
queue is a step; a thread that waits on a condition may look again at any time. A job is taken at
most once and in the order of acceptance, and when all workers have left through their pills no
accepted job is behind. -/
namespace DisconnectedYfs.RPC
open TraceSystem

/-- `fifo<T>`; the maximum 0 is none. -/
structure Fifo (α : Type) where
  q : List α := []
  max : ℕ

namespace Fifo
variable {α : Type}

/-- One round of `enq`: what it returns, or `none` when it waits for space. -/
def enq (f : Fifo α) (e : α) (blocking : Bool) : Option Bool × Fifo α :=
  if f.max = 0 ∨ f.q.length < f.max then (some true, { f with q := f.q ++ [e] })
  else if blocking then (none, f)
  else (some false, f)

/-- One round of `deq`, or `none` when it waits for an element. -/
def deq (f : Fifo α) : Option (α × Fifo α) :=
  match f.q with
  | [] => none
  | e :: q => some (e, { f with q := q })

end Fifo

/-- A thread of `do_worker`. -/
inductive WorkerStage (J : Type) where
  | taking
  | running (j : J)
  | exited
deriving DecidableEq

/-- The destructor: not called yet, with `k` pills in the queue, or with `k` threads joined. -/
inductive DtorStage where
  | idle
  | enqueuing (k : ℕ)
  | joining (k : ℕ)
deriving DecidableEq

/-- A pool of `n` threads. A pill is `none`. A thread that waits in `addJob` is in `adding` with its
job; `returned` is what the calls of `addJob` have returned, `taken` the jobs that have been taken,
and `pills` how many pills each worker has taken. -/
structure ThrPool (J : Type) (n : ℕ) where
  blockadd : Bool
  jobq : Fifo (Option J)
  adding : ℕ → Option J := fun _ => none
  worker : Fin n → WorkerStage J := fun _ => .taking
  dtor : DtorStage := .idle
  returned : List (J × Bool) := []
  taken : List J := []
  pills : Fin n → ℕ := fun _ => 0

inductive PoolStep (J : Type) (n : ℕ) where
  | addJob (t : ℕ) (j : J)
  | addAgain (t : ℕ)
  | takeJob (i : Fin n)
  | jobDone (i : Fin n)
  | destroy
  | pill
  | join

namespace ThrPool
variable {J : Type} {n : ℕ}

/-- The constructor, for a queue of this capacity. -/
def init (J : Type) (n : ℕ) (max : ℕ) (blocking : Bool) : ThrPool J n :=
  { blockadd := blocking, jobq := { max := max } }

/-- The jobs whose `addJob` has returned true. -/
def accepted (p : ThrPool J n) : List J := (p.returned.filter Prod.snd).map Prod.fst

/-- One round of `addJob`. -/
def enqJob (p : ThrPool J n) (t : ℕ) (j : J) : ThrPool J n :=
  match p.jobq.enq (some j) p.blockadd with
  | (some b, f) =>
    { p with
      jobq := f,
      adding := fun u => if u = t then none else p.adding u,
      returned := p.returned ++ [(j, b)] }
  | (none, f) => { p with jobq := f, adding := fun u => if u = t then some j else p.adding u }

/-- `takeJob` by a worker, which dies of a pill. -/
def takeJob (p : ThrPool J n) (i : Fin n) : Option (ThrPool J n) :=
  match p.worker i with
  | .taking => p.jobq.deq.map fun
    | (some j, f) =>
      { p with
        jobq := f,
        worker := Function.update p.worker i (.running j),
        taken := p.taken ++ [j] }
    | (none, f) =>
      { p with
        jobq := f,
        worker := Function.update p.worker i .exited,
        pills := Function.update p.pills i (p.pills i + 1) }
  | _ => none

/-- The destructor goes on to the threads once every thread has its pill. -/
def enqueuing (n k : ℕ) : DtorStage := if k < n then .enqueuing k else .joining 0

def enqPill (p : ThrPool J n) : Option (ThrPool J n) :=
  match p.dtor with
  | .enqueuing k =>
    match p.jobq.enq none true with
    | (some _, f) => some { p with jobq := f, dtor := enqueuing n (k+1) }
    | (none, _) => none
  | _ => none

def step (p : ThrPool J n) : PoolStep J n → Option (ThrPool J n)
  | .addJob t j => if (p.adding t).isNone then some (p.enqJob t j) else none
  | .addAgain t => (p.adding t).map fun j => p.enqJob t j
  | .takeJob i => p.takeJob i
  | .jobDone i =>
    match p.worker i with
    | .running _ => some { p with worker := Function.update p.worker i .taking }
    | _ => none
  | .destroy => if p.dtor = .idle then some { p with dtor := enqueuing n 0 } else none
  | .pill => p.enqPill
  | .join =>
    match p.dtor with
    | .joining k =>
      if h : k < n then
        match p.worker ⟨k, h⟩ with
        | .exited => some { p with dtor := .joining (k+1) }
        | _ => none
      else none
    | _ => none

/-- The pills that the destructor has enqueued. -/
def enqueued (p : ThrPool J n) : ℕ :=
  match p.dtor with
  | .idle => 0
  | .enqueuing k => k
  | .joining _ => n

/-- No job is accepted after the destructor has started. -/
def NoLateJob (p : ThrPool J n) (e : PoolStep J n) : Prop :=
  p.dtor ≠ .idle → ∀ p', p.step e = some p' → p'.accepted = p.accepted

instance [DecidableEq J] (p : ThrPool J n) (e : PoolStep J n) : Decidable (p.NoLateJob e) :=
  decidable_of_iff (p.dtor ≠ .idle → (p.step e).all (fun p' => p'.accepted = p.accepted)) (by
    unfold NoLateJob
    cases p.step e <;> simp)

/-- What a step is for the queue and the workers. -/
inductive Does (p p' : ThrPool J n) : Prop
  | stays (hq : p'.jobq = p.jobq) (ha : p'.accepted = p.accepted) (ht : p'.taken = p.taken)
      (hw : ∀ i, p'.worker i = .exited ↔ p.worker i = .exited) (hp : p'.pills = p.pills)
      (hd : p'.enqueued = p.enqueued) (hk : ∀ k, p'.dtor = .enqueuing k → k < n)
  | accepts (j : J) (hspace : p.jobq.max = 0 ∨ p.jobq.q.length < p.jobq.max)
      (hq : p'.jobq = { p.jobq with q := p.jobq.q ++ [some j] })
      (ha : p'.accepted = p.accepted ++ [j]) (ht : p'.taken = p.taken)
      (hw : p'.worker = p.worker) (hp : p'.pills = p.pills) (hd : p'.dtor = p.dtor)
  | takes (i : Fin n) (j : J) (q : List (Option J)) (hq : p.jobq.q = some j :: q)
      (hq' : p'.jobq = { p.jobq with q := q }) (ha : p'.accepted = p.accepted)
      (ht : p'.taken = p.taken ++ [j]) (hi : p.worker i = .taking)
      (hw : p'.worker = Function.update p.worker i (.running j)) (hp : p'.pills = p.pills)
      (hd : p'.dtor = p.dtor)
  | dies (i : Fin n) (q : List (Option J)) (hq : p.jobq.q = none :: q)
      (hq' : p'.jobq = { p.jobq with q := q }) (ha : p'.accepted = p.accepted)
      (ht : p'.taken = p.taken) (hi : p.worker i = .taking)
      (hw : p'.worker = Function.update p.worker i .exited)
      (hp : p'.pills = Function.update p.pills i (p.pills i + 1)) (hd : p'.dtor = p.dtor)
  | poisons (hspace : p.jobq.max = 0 ∨ p.jobq.q.length < p.jobq.max)
      (hq : p'.jobq = { p.jobq with q := p.jobq.q ++ [none] }) (ha : p'.accepted = p.accepted)
      (ht : p'.taken = p.taken) (hw : p'.worker = p.worker) (hp : p'.pills = p.pills)
      (hd : p'.enqueued = p.enqueued + 1) (hk : ∀ k, p'.dtor = .enqueuing k → k < n)

/-- The queue is within its capacity, it holds the accepted jobs that nobody has taken, a worker has
taken a pill exactly if it has exited, and no pill is missing. -/
structure Sound (p : ThrPool J n) : Prop where
  bounded : p.jobq.max ≠ 0 → p.jobq.q.length ≤ p.jobq.max
  accepted : p.accepted = p.taken ++ p.jobq.q.filterMap id
  exited : ∀ i, p.pills i ≤ 1 ∧ (p.worker i = .exited ↔ p.pills i = 1)
  pills : ∑ i, p.pills i + p.jobq.q.countP Option.isNone = p.enqueued
  dtor : ∀ k, p.dtor = .enqueuing k → k < n

/-- Behind a pill there are only pills, also behind one that has been taken. -/
structure Closed (p : ThrPool J n) : Prop where
  last : p.jobq.q.Pairwise (fun a b => a.isNone → b.isNone)
  behind : 0 < ∑ i, p.pills i → ∀ a ∈ p.jobq.q, a.isNone

section
variable {p p' : ThrPool J n} {e : PoolStep J n} {t k : ℕ} {j : J} {i : Fin n}

theorem enqueuing_lt (h : enqueuing n t = .enqueuing k) : k < n := by
  unfold enqueuing at h
  split_ifs at h with hlt
  cases h
  exact hlt

theorem enqJob_does (t : ℕ) (j : J) (hk : ∀ k, p.dtor = .enqueuing k → k < n) :
    p.Does (p.enqJob t j) := by
  unfold enqJob Fifo.enq
  by_cases hspace : p.jobq.max = 0 ∨ p.jobq.q.length < p.jobq.max
  · rw [if_pos hspace]
    refine .accepts j hspace rfl ?_ rfl rfl rfl rfl
    simp [accepted]
  · rw [if_neg hspace]
    cases p.blockadd with
    | true => exact .stays rfl rfl rfl (fun _ => Iff.rfl) rfl rfl hk
    | false =>
      refine .stays rfl ?_ rfl (fun _ => Iff.rfl) rfl rfl hk
      simp [accepted]

theorem takeJob_does (h : p.takeJob i = some p') : p.Does p' := by
  unfold takeJob at h
  split at h
  · rename_i hi
    obtain ⟨⟨a,f⟩,hdeq,heq⟩ := Option.map_eq_some_iff.mp h
    unfold Fifo.deq at hdeq
    split at hdeq
    · cases hdeq
    · rename_i a' q hq
      cases hdeq
      cases a with
      | some j =>
        cases heq
        exact .takes i j q hq rfl rfl rfl hi rfl rfl rfl
      | none =>
        cases heq
        exact .dies i q hq rfl rfl rfl hi rfl rfl rfl
  · cases h

theorem enqPill_does (hk : ∀ k, p.dtor = .enqueuing k → k < n) (h : p.enqPill = some p') :
    p.Does p' := by
  unfold enqPill Fifo.enq at h
  split at h
  · rename_i k hd
    by_cases hspace : p.jobq.max = 0 ∨ p.jobq.q.length < p.jobq.max
    · rw [if_pos hspace] at h
      cases h
      refine .poisons hspace rfl rfl rfl rfl rfl ?_ (fun _ hk' => enqueuing_lt hk')
      have hlt := hk k hd
      unfold enqueued enqueuing
      rw [hd]
      by_cases hmore : k+1 < n
      · rw [if_pos hmore]
      · -- it was the last pill
        rw [if_neg hmore]
        dsimp only
        omega
    · rw [if_neg hspace] at h
      cases h
  · cases h

theorem step_does (hk : ∀ k, p.dtor = .enqueuing k → k < n) (h : p.step e = some p') :
    p.Does p' := by
  cases e with
  | addJob t j =>
    unfold step at h
    dsimp only at h
    split_ifs at h
    cases h
    exact enqJob_does t j hk
  | addAgain t =>
    obtain ⟨j,-,rfl⟩ := Option.map_eq_some_iff.mp h
    exact enqJob_does t j hk
  | takeJob i => exact takeJob_does h
  | jobDone i =>
    unfold step at h
    dsimp only at h
    split at h
    · rename_i j hi
      cases h
      refine .stays rfl rfl rfl ?_ rfl rfl hk
      intro l
      by_cases hl : l = i
      · subst hl
        simp [hi]
      · simp only [Function.update_of_ne hl]
    · cases h
  | destroy =>
    unfold step at h
    dsimp only at h
    split_ifs at h with hidle
    cases h
    refine .stays rfl rfl rfl (fun _ => Iff.rfl) rfl ?_ (fun _ hk' => enqueuing_lt hk')
    unfold enqueued enqueuing
    rw [hidle]
    by_cases hn : 0 < n
    · rw [if_pos hn]
    · -- there is no thread to poison
      rw [if_neg hn]
      dsimp only
      omega
  | pill => exact enqPill_does hk h
  | join =>
    unfold step at h
    dsimp only at h
    split at h
    · rename_i k hd
      split_ifs at h
      split at h
      · cases h
        refine .stays rfl rfl rfl (fun _ => Iff.rfl) rfl ?_ (fun _ hk' => by cases hk')
        unfold enqueued
        rw [hd]
      · cases h
    · cases h

theorem max_step (hk : ∀ k, p.dtor = .enqueuing k → k < n) (h : p.step e = some p') :
    p'.jobq.max = p.jobq.max := by
  cases step_does hk h with
  | stays hq => rw [hq]
  | accepts j _ hq => rw [hq]
  | takes i j q _ hq => rw [hq]
  | dies i q _ hq => rw [hq]
  | poisons _ hq => rw [hq]

theorem enqueued_of_dtor (h : p'.dtor = p.dtor) : p'.enqueued = p.enqueued := by
  unfold enqueued
  rw [h]

/-- One more pill has been taken. -/
theorem sum_pills (f : Fin n → ℕ) (i : Fin n) :
    ∑ l, Function.update f i (f i + 1) l = ∑ l, f l + 1 := by
  rw [Finset.sum_update_of_mem (Finset.mem_univ i), Finset.sdiff_singleton_eq_erase,
    ← Finset.add_sum_erase Finset.univ f (Finset.mem_univ i)]
  omega

theorem Sound.step (hs : p.Sound) (h : p.step e = some p') : p'.Sound := by
  cases step_does hs.dtor h with
  | stays hq ha ht hw hp hd hk =>
    refine ⟨?_, ?_, ?_, ?_, hk⟩
    · rw [hq]
      exact hs.bounded
    · rw [ha, ht, hq]
      exact hs.accepted
    · intro i
      rw [hp, hw]
      exact hs.exited i
    · rw [hp, hq, hd]
      exact hs.pills
  | accepts j hspace hq ha ht hw hp hd =>
    refine ⟨?_, ?_, ?_, ?_, ?_⟩
    · intro hmax
      rw [hq] at hmax ⊢
      rw [List.length_append, List.length_singleton]
      dsimp only at hmax ⊢
      omega
    · rw [hq, ha, ht, hs.accepted, List.filterMap_append, List.append_assoc]
      rfl
    · rw [hp, hw]
      exact hs.exited
    · rw [hp, hq, enqueued_of_dtor hd, List.countP_append]
      exact hs.pills
    · rw [hd]
      exact hs.dtor
  | takes i j q hq hq' ha ht hi hw hp hd =>
    have hbounded := hs.bounded
    have haccepted := hs.accepted
    have hpills := hs.pills
    rw [hq] at hbounded haccepted hpills
    refine ⟨?_, ?_, ?_, ?_, ?_⟩
    · rw [hq']
      rw [List.length_cons] at hbounded
      dsimp only
      omega
    · rw [ha, ht, hq', haccepted, List.append_assoc]
      rfl
    · intro l
      rw [hp, hw]
      by_cases hl : l = i
      · subst hl
        rw [Function.update_self]
        have := (hs.exited l)
        rw [hi] at this
        simpa using this
      · rw [Function.update_of_ne hl]
        exact hs.exited l
    · rw [hp, hq', enqueued_of_dtor hd]
      exact hpills
    · rw [hd]
      exact hs.dtor
  | dies i q hq hq' ha ht hi hw hp hd =>
    have hbounded := hs.bounded
    have haccepted := hs.accepted
    have hpills := hs.pills
    rw [hq] at hbounded haccepted hpills
    have halive := hs.exited i
    rw [hi] at halive
    have hzero : p.pills i = 0 := by
      have hne : p.pills i ≠ 1 := fun h => by cases halive.2.mpr h
      have := halive.1
      omega
    refine ⟨?_, ?_, ?_, ?_, ?_⟩
    · rw [hq']
      rw [List.length_cons] at hbounded
      dsimp only
      omega
    · rw [ha, ht, hq', haccepted]
      rfl
    · intro l
      rw [hp, hw]
      by_cases hl : l = i
      · subst hl
        simp [hzero]
      · rw [Function.update_of_ne hl, Function.update_of_ne hl]
        exact hs.exited l
    · rw [hp, hq', enqueued_of_dtor hd, sum_pills, ← hpills, List.countP_cons_of_pos (by rfl)]
      dsimp only
      omega
    · rw [hd]
      exact hs.dtor
  | poisons hspace hq ha ht hw hp hd hk =>
    refine ⟨?_, ?_, ?_, ?_, hk⟩
    · intro hmax
      rw [hq] at hmax ⊢
      rw [List.length_append, List.length_singleton]
      dsimp only at hmax ⊢
      omega
    · rw [hq, ha, ht, hs.accepted, List.filterMap_append]
      simp
    · rw [hp, hw]
      exact hs.exited
    · have hpills := hs.pills
      rw [hp, hq, hd, List.countP_append]
      simp
      omega

/-- No pill has been enqueued before the destructor starts. -/
theorem Sound.no_pill (hs : p.Sound) (h : p.dtor = .idle) :
    ∑ i, p.pills i = 0 ∧ ∀ a ∈ p.jobq.q, a.isNone = false := by
  have hpills := hs.pills
  have hzero : p.enqueued = 0 := by
    unfold enqueued
    rw [h]
  rw [hzero] at hpills
  refine ⟨by omega, ?_⟩
  have hcount : p.jobq.q.countP Option.isNone = 0 := by omega
  intro a ha
  exact Bool.eq_false_iff.mpr (List.countP_eq_zero.mp hcount a ha)

theorem Closed.step (hc : p.Closed) (hs : p.Sound) (h : p.step e = some p')
    (he : p.NoLateJob e) : p'.Closed := by
  cases step_does hs.dtor h with
  | stays hq ha ht hw hp hd hk =>
    refine ⟨?_, ?_⟩
    · rw [hq]
      exact hc.last
    · rw [hp, hq]
      exact hc.behind
  | accepts j hspace hq ha ht hw hp hd =>
    -- the destructor has not started, so there is no pill at all
    have hidle : p.dtor = .idle := by
      by_contra hne
      have hsame := he hne p' h
      rw [ha] at hsame
      simpa using congrArg List.length hsame
    obtain ⟨hnone,hjobs⟩ := hs.no_pill hidle
    refine ⟨?_, ?_⟩
    · rw [hq]
      refine List.pairwise_append.mpr ⟨hc.last, List.pairwise_singleton _ _, ?_⟩
      intro a ha b hb hpill
      rw [hjobs a ha] at hpill
      cases hpill
    · intro hpos
      rw [hp, hnone] at hpos
      exact absurd hpos (Nat.lt_irrefl 0)
  | takes i j q hq hq' ha ht hi hw hp hd =>
    have hlast := hc.last
    rw [hq] at hlast
    refine ⟨?_, ?_⟩
    · rw [hq']
      exact (List.pairwise_cons.mp hlast).2
    · intro hpos a hmem
      rw [hp] at hpos
      rw [hq'] at hmem
      exact hc.behind hpos a (hq ▸ List.mem_cons_of_mem _ hmem)
  | dies i q hq hq' ha ht hi hw hp hd =>
    have hlast := hc.last
    rw [hq] at hlast
    obtain ⟨hfirst,hrest⟩ := List.pairwise_cons.mp hlast
    refine ⟨?_, ?_⟩
    · rw [hq']
      exact hrest
    · intro _ a hmem
      rw [hq'] at hmem
      exact hfirst a hmem rfl
  | poisons hspace hq ha ht hw hp hd hk =>
    refine ⟨?_, ?_⟩
    · rw [hq]
      refine List.pairwise_append.mpr ⟨hc.last, List.pairwise_singleton _ _, ?_⟩
      intro a _ b hb _
      rw [List.mem_singleton.mp hb]
      rfl
    · intro hpos a hmem
      rw [hp] at hpos
      rw [hq] at hmem
      rcases List.mem_append.mp hmem with hmem | hmem
      · exact hc.behind hpos a hmem
      · rw [List.mem_singleton.mp hmem]
        rfl

theorem sound_init (J : Type) (n max : ℕ) (blocking : Bool) : (init J n max blocking).Sound := by
  refine ⟨fun _ => Nat.zero_le _, rfl, ?_, ?_, fun k hk => by cases hk⟩
  · intro i
    refine ⟨Nat.zero_le 1, ?_⟩
    simp [init]
  · simp [init, enqueued]

theorem closed_init (J : Type) (n max : ℕ) (blocking : Bool) : (init J n max blocking).Closed :=
  ⟨List.Pairwise.nil, fun _ a ha => by cases ha⟩

theorem Sound.enqueued_le (hs : p.Sound) : p.enqueued ≤ n := by
  have hdtor := hs.dtor
  unfold enqueued
  cases hd : p.dtor with
  | idle => exact Nat.zero_le n
  | enqueuing k => exact Nat.le_of_lt (hdtor k hd)
  | joining k => exact Nat.le_refl n

/-- When every worker has exited each has taken one pill, and these are all there were. -/
theorem Sound.all_exited (hs : p.Sound) (h : ∀ i, p.worker i = .exited) :
    (∀ i, p.pills i = 1) ∧ ∑ i, p.pills i = n ∧ p.jobq.q.countP Option.isNone = 0 := by
  have hone : ∀ i, p.pills i = 1 := fun i => (hs.exited i).2.mp (h i)
  have hsum : ∑ i, p.pills i = n := by
    calc ∑ i, p.pills i = ∑ _i : Fin n, 1 := Finset.sum_congr rfl (fun i _ => hone i)
      _ = n := by simp
  have hpills := hs.pills
  have hle := hs.enqueued_le
  exact ⟨hone, hsum, by omega⟩

end

/-- For any number of workers and any capacity, in every interleaving: the queue is within its
capacity, what has been taken is an initial part of what has been accepted, and the rest is in the
queue. When a pool that has workers has lost all of them, and no job was accepted after the
destructor started, every accepted job has been taken, the queue is empty and each worker has taken
one pill. -/
theorem thread_pool_keeps_jobs {max : ℕ} {blocking : Bool} {es : List (PoolStep J n)}
    {p : ThrPool J n} (hrun : run step (init J n max blocking) es = some p) :
    (max ≠ 0 → p.jobq.q.length ≤ max) ∧ p.accepted = p.taken ++ p.jobq.q.filterMap id ∧
      (Meets step NoLateJob (init J n max blocking) es → 0 < n → (∀ i, p.worker i = .exited) →
        p.taken = p.accepted ∧ p.jobq.q = [] ∧ ∀ i, p.pills i = 1) := by
  have hsound : p.Sound ∧ p.jobq.max = max := run_invariant
    (I := fun p => p.Sound ∧ p.jobq.max = max)
    (fun _ _ _ hI h => ⟨hI.1.step h, (max_step hI.1.dtor h).trans hI.2⟩)
    ⟨sound_init J n max blocking, rfl⟩ hrun
  obtain ⟨hsound,hmax⟩ := hsound
  refine ⟨hmax ▸ hsound.bounded, hsound.accepted, ?_⟩
  intro hmeets hn hexited
  have hboth : p.Sound ∧ p.Closed := hmeets.invariant (I := fun p => p.Sound ∧ p.Closed)
    (fun _ _ _ hI hC h => ⟨hI.1.step h, hI.2.step hI.1 h hC⟩)
    ⟨sound_init J n max blocking, closed_init J n max blocking⟩ hrun
  obtain ⟨hone,hsum,hcount⟩ := hsound.all_exited hexited
  have hempty : p.jobq.q = [] := by
    apply List.eq_nil_iff_forall_not_mem.mpr
    intro a ha
    -- it is a pill, and all pills have been taken
    have hpill := hboth.2.behind (by omega) a ha
    exact List.countP_eq_zero.mp hcount a ha hpill
  refine ⟨?_, hempty, hone⟩
  rw [hsound.accepted, hempty]
  simp

/-- Two workers and a queue of one place, on which a producer and the destructor have to wait. -/
theorem thread_pool_keeps_jobs_two : ∃ p, run step (init ℕ 2 1 true)
      [.addJob 0 10, .takeJob 0, .addJob 0 11, .addJob 1 12, .takeJob 1, .addAgain 1, .jobDone 0,
        .destroy, .takeJob 0, .pill, .jobDone 0, .takeJob 0, .jobDone 1, .pill, .takeJob 1, .join,
        .join] = some p ∧ p.accepted = [10, 11, 12] ∧ p.taken = p.accepted ∧ p.jobq.q = [] ∧
    ∀ i, p.pills i = 1 := by
  obtain ⟨p,hrun,haccepted,hexited⟩ := reaches_of_any step
    (fun p => p.accepted = [10, 11, 12] ∧ ∀ i, p.worker i = .exited) (init ℕ 2 1 true)
    [.addJob 0 10, .takeJob 0, .addJob 0 11, .addJob 1 12, .takeJob 1, .addAgain 1, .jobDone 0,
      .destroy, .takeJob 0, .pill, .jobDone 0, .takeJob 0, .jobDone 1, .pill, .takeJob 1, .join,
      .join] (by decide +kernel)
  exact ⟨p, hrun, haccepted, (thread_pool_keeps_jobs hrun).2.2 (by decide +kernel)
    (by decide) hexited⟩

/-- A pool without workers accepts a job that nobody takes. -/
theorem thread_pool_without_workers :
    ∃ p, run step (init ℕ 0 0 true) [.addJob 0 7, .destroy] = some p ∧
    Meets step NoLateJob (init ℕ 0 0 true) [.addJob 0 7, .destroy] ∧
    (∀ i, p.worker i = .exited) ∧ p.accepted = [7] ∧ p.taken = [] ∧ p.jobq.q = [some 7] := by
  obtain ⟨p,hrun,hexited,hrest⟩ := reaches_of_any step
    (fun p => (∀ i, p.worker i = .exited) ∧ p.accepted = [7] ∧ p.taken = [] ∧ p.jobq.q = [some 7])
    (init ℕ 0 0 true) [.addJob 0 7, .destroy] (by decide +kernel)
  exact ⟨p, hrun, by decide +kernel, hexited, hrest⟩

end ThrPool

end DisconnectedYfs.RPC
