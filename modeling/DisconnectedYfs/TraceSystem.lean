import Mathlib.Logic.Function.Basic
import Mathlib.Data.List.Induction
import Mathlib.Algebra.Group.Nat.Defs
import Mathlib.Algebra.Group.Int.Defs

/-! Runs of a labelled, partial transition function. A run is the list of its labels; a label
that is not enabled ends it. The rules below are the induction principles for what holds along
a run, possibly only along those runs whose every step meets a side condition. -/
namespace TraceSystem

universe u v
variable {σ : Type u} {ε : Type v} (step : σ → ε → Option σ)

def run : σ → List ε → Option σ
  | s, [] => some s
  | s, e :: es => (step s e).bind (fun s' => run s' es)

/-- Every step of the run that starts at `s` meets `C`, read in the state before the step. -/
def Meets (C : σ → ε → Prop) : σ → List ε → Prop
  | _, [] => True
  | s, e :: es => C s e ∧ ∀ s', step s e = some s' → Meets C s' es

/-- A side condition that can be evaluated can be evaluated along a run. -/
def Meets.decide (C : σ → ε → Prop) [∀ s e, Decidable (C s e)] :
    (s : σ) → (es : List ε) → Decidable (Meets step C s es)
  | _, [] => .isTrue trivial
  | s, e :: es =>
    match h : step s e with
    | none => decidable_of_iff (C s e) (by simp [Meets, h])
    | some s' =>
      have := Meets.decide C s' es
      decidable_of_iff (C s e ∧ Meets step C s' es) (by simp [Meets, h])

instance (C : σ → ε → Prop) [∀ s e, Decidable (C s e)] (s : σ) (es : List ε) :
    Decidable (Meets step C s es) := Meets.decide step C s es

@[simp] theorem run_nil (s : σ) : run step s [] = some s := rfl

@[simp] theorem run_cons (s : σ) (e : ε) (es : List ε) :
    run step s (e :: es) = (step s e).bind (fun s' => run step s' es) := rfl

theorem run_append (s : σ) (es fs : List ε) :
    run step s (es ++ fs) = (run step s es).bind (fun s' => run step s' fs) := by
  induction es generalizing s with
  | nil => rfl
  | cons e es ih =>
    rw [List.cons_append, run_cons, run_cons, Option.bind_assoc]
    congr 1
    funext s'
    exact ih s'

variable {step}

theorem run_snoc {s t : σ} {es : List ε} {e : ε} :
    run step s (es ++ [e]) = some t ↔ ∃ r, run step s es = some r ∧ step r e = some t := by
  rw [run_append]
  constructor
  · intro h
    obtain ⟨r,hr,ht⟩ := Option.bind_eq_some_iff.mp h
    refine ⟨r, hr, ?_⟩
    obtain ⟨u,hu,hut⟩ := Option.bind_eq_some_iff.mp ht
    rw [hu]
    exact hut
  · rintro ⟨r,hr,ht⟩
    rw [hr]
    simp only [Option.bind_some, run_cons, ht, run_nil]

theorem Meets.append {C : σ → ε → Prop} {s : σ} {es fs : List ε} (h : Meets step C s (es ++ fs)) :
    Meets step C s es ∧ ∀ t, run step s es = some t → Meets step C t fs := by
  induction es generalizing s with
  | nil =>
    refine ⟨trivial, ?_⟩
    intro t ht
    cases ht
    exact h
  | cons e es ih =>
    obtain ⟨hc,hn⟩ := h
    refine ⟨⟨hc, fun s' hs' => (ih (hn s' hs')).1⟩, ?_⟩
    intro t ht
    obtain ⟨s',hs',hrun⟩ := Option.bind_eq_some_iff.mp ht
    exact (ih (hn s' hs')).2 t hrun

/-- A condition on the labels alone. -/
theorem Meets.of_labels {p : ε → Prop} {es : List ε} (h : ∀ e ∈ es, p e) (s : σ) :
    Meets step (fun _ e => p e) s es := by
  induction es generalizing s with
  | nil => trivial
  | cons e es ih =>
    obtain ⟨he,hes⟩ := List.forall_mem_cons.mp h
    exact ⟨he, fun s' _ => ih hes s'⟩

theorem Meets.mono {C D : σ → ε → Prop} (h : ∀ s e, C s e → D s e) {s : σ} {es : List ε}
    (hc : Meets step C s es) : Meets step D s es := by
  induction es generalizing s with
  | nil => trivial
  | cons e es ih => exact ⟨h s e hc.1, fun s' hs' => ih (hc.2 s' hs')⟩

theorem Meets.and {C D : σ → ε → Prop} {s : σ} {es : List ε} (hc : Meets step C s es)
    (hd : Meets step D s es) : Meets step (fun s e => C s e ∧ D s e) s es := by
  induction es generalizing s with
  | nil => trivial
  | cons e es ih => exact ⟨⟨hc.1, hd.1⟩, fun s' hs' => ih (hc.2 s' hs') (hd.2 s' hs')⟩

/-- The invariant rule: what holds initially and is kept by every step that meets `C` holds at
the end of every run whose steps all meet `C`. -/
theorem Meets.invariant {C : σ → ε → Prop} {I : σ → Prop}
    (hstep : ∀ s e s', I s → C s e → step s e = some s' → I s')
    {s t : σ} {es : List ε} (hs : I s) (hc : Meets step C s es) (hrun : run step s es = some t) :
    I t := by
  induction es generalizing s with
  | nil =>
    cases hrun
    exact hs
  | cons e es ih =>
    obtain ⟨s',hs',hrest⟩ := Option.bind_eq_some_iff.mp hrun
    exact ih (hstep s e s' hs hc.1 hs') (hc.2 s' hs') hrest

/-- The same rule for a property of the labels read so far together with the state reached. -/
theorem run_history {I : List ε → σ → Prop} {s t : σ} {es : List ε} (hs : I [] s)
    (hstep : ∀ fs e r r', run step s fs = some r → I fs r → step r e = some r' → I (fs ++ [e]) r')
    (hrun : run step s es = some t) : I es t := by
  induction es using List.reverseRecOn generalizing t with
  | nil =>
    cases hrun
    exact hs
  | append_singleton fs e ih =>
    obtain ⟨r,hr,ht⟩ := run_snoc.mp hrun
    exact hstep fs e r t hr (ih hr) ht

/-- The invariant rule for runs without a side condition. -/
theorem run_invariant {I : σ → Prop} (hstep : ∀ s e s', I s → step s e = some s' → I s')
    {s t : σ} {es : List ε} (hs : I s) (hrun : run step s es = some t) : I t :=
  run_history (I := fun _ t => I t) hs (fun _ e r r' _ hr hrr' => hstep r e r' hr hrr') hrun

/-- A run that can be evaluated reaches what it is seen to reach. -/
theorem reaches_of_any (step : σ → ε → Option σ) (P : σ → Prop) [DecidablePred P] (s : σ)
    (es : List ε) (h : (run step s es).any (fun t => decide (P t)) = true) :
    ∃ t, run step s es = some t ∧ P t := by
  obtain ⟨t,ht,hp⟩ := (Option.any_eq_true _ _).mp h
  exact ⟨t, ht, of_decide_eq_true hp⟩

/-- And for runs whose steps all meet `C`; what holds before the step may be read off the run that
leads there. -/
theorem Meets.history {C : σ → ε → Prop} {I : List ε → σ → Prop} {s t : σ} {es : List ε}
    (hs : I [] s)
    (hstep : ∀ fs e r r', Meets step C s fs → run step s fs = some r → I fs r → C r e →
      step r e = some r' → I (fs ++ [e]) r')
    (hc : Meets step C s es) (hrun : run step s es = some t) : I es t := by
  have main : Meets step C s es → I es t := by
    refine run_history (I := fun es t => Meets step C s es → I es t) (fun _ => hs) ?_ hrun
    intro fs e r r' hr ih hrr' hmeets
    obtain ⟨hfs,he⟩ := hmeets.append
    exact hstep fs e r r' hfs hr (ih hfs) (he r hr).1 hrr'
  exact main hc

/-- If `R` relates the initial states, and every step that meets `C` is matched by a run between
related states, then a run whose steps all meet `C` is matched. `R` may look at the labels read so
far. -/
theorem Meets.simulation {τ φ : Type*} {absStep : τ → φ → Option τ} {f : ε → List φ}
    {C : σ → ε → Prop} {R : List ε → σ → τ → Prop} {s t : σ} {u : τ} {es : List ε} (hs : R [] s u)
    (hstep : ∀ fs e r r' v, run step s fs = some r → run absStep u (fs.flatMap f) = some v →
      R fs r v → C r e → step r e = some r' →
      ∃ v', run absStep v (f e) = some v' ∧ R (fs ++ [e]) r' v')
    (hc : Meets step C s es) (hrun : run step s es = some t) :
    ∃ v, run absStep u (es.flatMap f) = some v ∧ R es t v := by
  refine hc.history (I := fun es t => ∃ v, run absStep u (es.flatMap f) = some v ∧ R es t v)
    ⟨u, rfl, hs⟩ ?_ hrun
  rintro fs e r r' - hr ⟨v,hv,hR⟩ hce hrr'
  obtain ⟨v',hv',hR'⟩ := hstep fs e r r' v hr hv hR hce hrr'
  refine ⟨v', ?_, hR'⟩
  rw [List.flatMap_append, run_append, hv]
  simpa using hv'

/-- What holds at the end of every such run may be used at each of its steps. -/
theorem Meets.strengthen {C : σ → ε → Prop} {I : σ → Prop} {s : σ} {es : List ε}
    (hI : ∀ fs t, Meets step C s fs → run step s fs = some t → I t) (hc : Meets step C s es) :
    Meets step (fun s e => C s e ∧ I s) s es := by
  induction es generalizing s with
  | nil => trivial
  | cons e es ih =>
    obtain ⟨he,hn⟩ := hc
    refine ⟨⟨he, hI [] s trivial rfl⟩, ?_⟩
    intro s' hs'
    apply ih _ (hn s' hs')
    intro fs t hfs ht
    apply hI (e :: fs) t
    · refine ⟨he, ?_⟩
      intro r hr
      rw [hs'] at hr
      cases hr
      exact hfs
    · simpa [hs'] using ht

/-- A value that follows a run: `f` says how it changes with a step. -/
def observed {β : Type*} (step : σ → ε → Option σ) (f : σ → ε → σ → β → β) : σ → β → List ε → β
  | _, b, [] => b
  | s, b, e :: es =>
    match step s e with
    | none => b
    | some s' => observed step f s' (f s e s' b) es

theorem observed_snoc {β : Type*} {f : σ → ε → σ → β → β} {s r r' : σ} {b : β} {es : List ε} {e : ε}
    (hr : run step s es = some r) (hrr' : step r e = some r') :
    observed step f s b (es ++ [e]) = f r e r' (observed step f s b es) := by
  induction es generalizing s b with
  | nil =>
    cases hr
    simp [observed, hrr']
  | cons a es ih =>
    obtain ⟨s',hs',hrest⟩ := Option.bind_eq_some_iff.mp hr
    simp only [List.cons_append, observed, hs']
    exact ih hrest

end TraceSystem
