import DisconnectedYfs.TraceSystem

/-! Objects whose operations take effect at one instant each, between their call and their return,
and how a system is shown to be one: each of its steps is matched by steps of the object that call
and return what the system's step does. The order of the instants is then an order in which the
operations could have run one after another, and it keeps the order of real time. -/
namespace AtomicObject

universe u v w x
variable {σ : Type u} {Op : Type v} {Res : Type w} {C : Type x}

/-- What the operations do, all at once, and what may happen to the state between them. -/
structure Spec (σ : Type u) (Op : Type v) (Res : Type w) where
  init : σ
  does : Op → σ → Res → σ → Prop
  drifts : σ → σ → Prop

/-- What can be seen of a client. -/
inductive Label (C : Type x) (Op : Type v) (Res : Type w) where
  | call (c : C) (op : Op)
  | back (c : C) (r : Res)
deriving DecidableEq, Repr

/-- A client's operation under way, with its result once it has taken effect. -/
abbrev Pending (C : Type x) (Op : Type v) (Res : Type w) := C → Option (Op × Option Res)

structure State (σ : Type u) (C : Type x) (Op : Type v) (Res : Type w) where
  st : σ
  pending : Pending C Op Res

def Spec.start (O : Spec σ Op Res) : State σ C Op Res := ⟨O.init, fun _ => none⟩

section
variable [DecidableEq C] {O : Spec σ Op Res} {a b d : State σ C Op Res}

/-- The steps of the object: what is not seen is that an operation takes effect. -/
inductive Step (O : Spec σ Op Res) (a : State σ C Op Res) :
    Option (Label C Op Res) → State σ C Op Res → Prop
  | invoke {c op} (hp : a.pending c = none) :
      Step O a (some (.call c op)) ⟨a.st, Function.update a.pending c (some (op, none))⟩
  | commit {c op r s} (hp : a.pending c = some (op, none)) (hd : O.does op a.st r s) :
      Step O a none ⟨s, Function.update a.pending c (some (op, some r))⟩
  | respond {c op r} (hp : a.pending c = some (op, some r)) :
      Step O a (some (.back c r)) ⟨a.st, Function.update a.pending c none⟩
  | drift {s} (hd : O.drifts a.st s) : Step O a none ⟨s, a.pending⟩

inductive Trace (O : Spec σ Op Res) (a : State σ C Op Res) :
    List (Label C Op Res) → State σ C Op Res → Prop
  | nil : Trace O a [] a
  | snoc {h b l d} (ht : Trace O a h b) (hs : Step O b l d) : Trace O a (h ++ l.toList) d

theorem Trace.append {h h' : List (Label C Op Res)} (ht : Trace O a h b) (ht' : Trace O b h' d) :
    Trace O a (h ++ h') d := by
  induction ht' with
  | nil => simpa using ht
  | snoc _ hs ih =>
    rw [← List.append_assoc]
    exact ih.snoc hs

theorem Step.trace {l : Option (Label C Op Res)} (hs : Step O a l b) : Trace O a l.toList b := by
  simpa using Trace.nil.snoc hs

/-- An operation takes effect after the state has drifted. -/
theorem Trace.drift_commit {c : C} {op : Op} {r : Res} {s t : σ} (hd : O.drifts a.st s)
    (hp : a.pending c = some (op, none)) (ht : O.does op s r t) :
    Trace O a [] ⟨t, Function.update a.pending c (some (op, some r))⟩ :=
  (Step.drift hd).trace.snoc (.commit hp ht)

end

/-- The operations one after another, each with its client and its result. -/
inductive Serial (O : Spec σ Op Res) (s : σ) : List (C × Op × Res) → σ → Prop
  | nil : Serial O s [] s
  | act {log t c op r u} (h : Serial O s log t) (hd : O.does op t r u) :
      Serial O s (log ++ [(c, op, r)]) u
  | drift {log t u} (h : Serial O s log t) (hd : O.drifts t u) : Serial O s log u

section
variable [DecidableEq C]

/-- What a client has called, and what its calls have returned. -/
def calls (c : C) (h : List (Label C Op Res)) : List Op :=
  h.filterMap (fun l =>
    match l with
    | .call c' op => if c' = c then some op else none
    | .back _ _ => none)

def backs (c : C) (h : List (Label C Op Res)) : List Res :=
  h.filterMap (fun l =>
    match l with
    | .call _ _ => none
    | .back c' r => if c' = c then some r else none)

def ops (c : C) (log : List (C × Op × Res)) : List Op :=
  log.filterMap (fun x => if x.1 = c then some x.2.1 else none)

def results (c : C) (log : List (C × Op × Res)) : List Res :=
  log.filterMap (fun x => if x.1 = c then some x.2.2 else none)

/-- The operation that has not taken effect. -/
def waiting : Option (Op × Option Res) → List Op
  | some (op, none) => [op]
  | _ => []

/-- The result that has not been returned. -/
def settled : Option (Op × Option Res) → List Res
  | some (_, some r) => [r]
  | _ => []

/-- The log has of every client, in order, what it has called and what its calls have returned, but
for the one call that is under way. -/
def Matches (h : List (Label C Op Res)) (log : List (C × Op × Res)) (p : Pending C Op Res) : Prop :=
  ∀ c, calls c h = ops c log ++ waiting (p c) ∧ results c log = backs c h ++ settled (p c)

/-- The log is an order in which the operations could have run one after another. Whatever has been
seen up to some point, a first part of the log matches it: so an operation that has returned stands
before all those that are called later. -/
structure Linearizes (O : Spec σ Op Res) (h : List (Label C Op Res)) (log : List (C × Op × Res))
    (s : σ) : Prop where
  legal : Serial O O.init log s
  order : ∀ h₁ h₂, h = h₁ ++ h₂ → ∃ log₁ log₂ p, log = log₁ ++ log₂ ∧ Matches h₁ log₁ p

variable {O : Spec σ Op Res} {a b : State σ C Op Res} {h : List (Label C Op Res)}
  {log : List (C × Op × Res)} {p : Pending C Op Res} {c : C} {op : Op} {r : Res}

theorem matches_call (hm : Matches h log p) (hp : p c = none) :
    Matches (h ++ [.call c op]) log (Function.update p c (some (op, none))) := by
  intro d
  obtain ⟨hcalls,hres⟩ := hm d
  by_cases hd : c = d
  · subst hd
    rw [hp] at hcalls hres
    simp only [calls, backs] at hcalls hres ⊢
    simp [hcalls, hres, waiting, settled]
  · rw [Function.update_of_ne (Ne.symm hd)]
    simp only [calls, backs] at hcalls hres ⊢
    simp [hcalls, hres, hd]

theorem matches_commit (hm : Matches h log p) (hp : p c = some (op, none)) :
    Matches h (log ++ [(c, op, r)]) (Function.update p c (some (op, some r))) := by
  intro d
  obtain ⟨hcalls,hres⟩ := hm d
  by_cases hd : c = d
  · subst hd
    rw [hp] at hcalls hres
    simp only [ops, results] at hcalls hres ⊢
    simp [hcalls, hres, waiting, settled]
  · rw [Function.update_of_ne (Ne.symm hd)]
    simp only [ops, results] at hcalls hres ⊢
    simp [hcalls, hres, hd]

theorem matches_back (hm : Matches h log p) (hp : p c = some (op, some r)) :
    Matches (h ++ [.back c r]) log (Function.update p c none) := by
  intro d
  obtain ⟨hcalls,hres⟩ := hm d
  by_cases hd : c = d
  · subst hd
    rw [hp] at hcalls hres
    simp only [calls, backs] at hcalls hres ⊢
    simp [hcalls, hres, waiting, settled]
  · rw [Function.update_of_ne (Ne.symm hd)]
    simp only [calls, backs] at hcalls hres ⊢
    simp [hcalls, hres, hd]

/-- A longer history needs no more than a match of its own. -/
theorem order_snoc {l : Label C Op Res}
    (ho : ∀ h₁ h₂, h = h₁ ++ h₂ → ∃ log₁ log₂ q, log = log₁ ++ log₂ ∧ Matches h₁ log₁ q)
    (hm : Matches (h ++ [l]) log p) (h₁ h₂ : List (Label C Op Res)) (heq : h ++ [l] = h₁ ++ h₂) :
    ∃ log₁ log₂ q, log = log₁ ++ log₂ ∧ Matches h₁ log₁ q := by
  induction h₂ using List.reverseRecOn with
  | nil =>
    rw [List.append_nil] at heq
    exact ⟨log, [], p, (List.append_nil _).symm, heq ▸ hm⟩
  | append_singleton h₂ l' _ =>
    rw [← List.append_assoc] at heq
    exact ho h₁ h₂ (List.append_inj_left' heq rfl)

/-- The instants at which the operations take effect are such an order. -/
theorem trace_linearizes (ht : Trace O O.start h b) :
    ∃ log, Linearizes O h log b.st ∧ Matches h log b.pending := by
  induction ht with
  | nil =>
    have hm : Matches ([] : List (Label C Op Res)) [] (O.start (C := C)).pending :=
      fun _ => ⟨rfl, rfl⟩
    refine ⟨[], ⟨.nil, fun h₁ h₂ heq => ?_⟩, hm⟩
    obtain ⟨rfl,-⟩ := List.append_eq_nil_iff.mp heq.symm
    exact ⟨[], [], _, rfl, hm⟩
  | snoc _ hs ih =>
    obtain ⟨log,⟨hlegal,horder⟩,hm⟩ := ih
    cases hs with
    | @invoke c op hp =>
      have hm' : Matches _ log (Function.update _ c (some (op, none))) := matches_call hm hp
      exact ⟨log, ⟨hlegal, order_snoc horder hm'⟩, hm'⟩
    | @commit c op r s hp hd =>
      have hm' := matches_commit (r := r) hm hp
      rw [Option.toList_none, List.append_nil]
      refine ⟨log ++ [(c, op, r)], ⟨hlegal.act hd, fun h₁ h₂ heq => ?_⟩, hm'⟩
      obtain ⟨log₁,log₂,q,rfl,hq⟩ := horder h₁ h₂ heq
      exact ⟨log₁, log₂ ++ [(c, op, r)], q, List.append_assoc _ _ _, hq⟩
    | respond hp =>
      have hm' := matches_back hm hp
      exact ⟨log, ⟨hlegal, order_snoc horder hm'⟩, hm'⟩
    | drift hd =>
      rw [Option.toList_none, List.append_nil]
      exact ⟨log, ⟨hlegal.drift hd, horder⟩, hm⟩

end

section
variable {S E : Type*} {step : S → E → Option S}

/-- What is seen of a run, if `obs` says what is seen of a step. -/
def history (step : S → E → Option S) (obs : S → E → S → Option (Label C Op Res)) :
    S → List (Label C Op Res) → List E → List (Label C Op Res) :=
  TraceSystem.observed step (fun s e s' h => h ++ (obs s e s').toList)

/-- The simulation rule: where each step is matched, every run is. -/
theorem simulates [DecidableEq C] {O : Spec σ Op Res} {obs : S → E → S → Option (Label C Op Res)}
    {D : S → E → Prop} {R : S → State σ C Op Res → Prop} {a : State σ C Op Res}
    (hstep : ∀ s e s' b, R s b → D s e → step s e = some s' →
      ∃ b', Trace O b (obs s e s').toList b' ∧ R s' b')
    {s t : S} {es : List E} (hs : R s a) (hd : TraceSystem.Meets step D s es)
    (hrun : TraceSystem.run step s es = some t) :
    ∃ b, Trace O a (history step obs s [] es) b ∧ R t b := by
  refine hd.history (I := fun es t => ∃ b, Trace O a (history step obs s [] es) b ∧ R t b)
    ⟨a, .nil, hs⟩ ?_ hrun
  rintro fs e r r' - hr ⟨b,ht,hb⟩ he hrr'
  obtain ⟨b',ht',hb'⟩ := hstep r e r' b hb he hrr'
  refine ⟨b', ?_, hb'⟩
  have hsnoc : history step obs s [] (fs ++ [e]) = history step obs s [] fs ++
    (obs r e r').toList :=
    TraceSystem.observed_snoc hr hrr'
  rw [hsnoc]
  exact ht.append ht'

end

end AtomicObject
