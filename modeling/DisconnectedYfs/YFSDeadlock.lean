import Mathlib.Logic.Relation
import DisconnectedYfs.YFSNames

/-! Who waits for whom. A thread that has the lock of a file waits for no lock, so a cycle of
waiting threads can only go through directories, whose locks `mkdir` asks for by the number it has
drawn. -/

namespace Relation
variable {α : Type*} {R R' : α → α → Prop} {a b : α}

theorem cycle_next (h : TransGen R a a) : ∃ b, R a b ∧ TransGen R b b := by
  obtain ⟨b,hab,hba⟩ := TransGen.head'_iff.mp h
  exact ⟨b, hab, TransGen.tail' hba hab⟩

theorem cycle_prev (h : TransGen R a a) : ∃ b, R b a ∧ TransGen R b b := by
  obtain ⟨b,hab,hba⟩ := TransGen.tail'_iff.mp h
  exact ⟨b, hba, TransGen.head' hba hab⟩

/-- A cycle stays one where its own edges stay. -/
theorem cycle_of_edges (h : ∀ a b, TransGen R a a → TransGen R b b → R a b → R' a b)
    (hab : TransGen R a b) (hba : ReflTransGen R b a) : TransGen R' a b := by
  induction hab with
  | single hac =>
    exact .single (h _ _ (TransGen.head' hac hba) (TransGen.tail' hba hac) hac)
  | @tail c d hac hcd ih =>
    have hca : ReflTransGen R c a := .head hcd hba
    have hdc : ReflTransGen R d c := hba.trans hac.to_reflTransGen
    exact (ih hca).tail (h c d (TransGen.head' hcd hdc) (TransGen.tail' hdc hcd) hcd)

end Relation

namespace DisconnectedYfs.YFS
open Std Relation

/-- The lock for which the thread of a client that runs is in `acquire`. -/
def Fs.asking (s : Fs) (A : ℕ) : Option ℕ :=
  if (s.sys.client A).aborted then none
  else
    match s.task A with
    | some ⟨_, .acquire l _, true⟩ => some l
    | _ => none

/-- `A` waits for a lock that `B` has between its `acquire` and `release`. -/
def Fs.Waits (s : Fs) (A B : ℕ) : Prop :=
  ∃ l, s.asking A = some l ∧ (s.sys.client B).aborted = false ∧ (s.sys.thread B 0).Has l

def Fs.holding (s : Fs) (A l : ℕ) : Bool := ((s.sys.thread A 0).section? l).isSome

/-- A `mkdir` waits for the lock of a number that it has drawn. -/
def Fs.drawing (s : Fs) (A : ℕ) : Bool :=
  match s.task A with
  | some ⟨.mkdir p _, .acquire _ _, true⟩ => s.holding A p
  | _ => false

/-- The lock that `mkdir` asks for, of a number that it has drawn, is neither one that it has itself
nor one of a `mkdir` that waits in the same way. -/
def Fs.drawsApart (s : Fs) : FsEvent → Bool
  | .call A =>
    match s.task A with
    | some ⟨.mkdir p _, .acquire l _, false⟩ =>
      !s.holding A p ||
        match (s.sys.lockTable.info l).owner with
        | some B => !(s.holding B l && (B = A || s.drawing B))
        | none => true
    | _ => true
  | _ => true

section
variable {s s' : Fs} {κ κ' : ℕ → Knowledge} {e : FsEvent} {A B C V l j p : ℕ} {op : Op} {r : Prog}
  {K : Knowledge} {name : Str} {k : Status → Prog} {c : Bool}

theorem asking_iff : s.asking A = some l ↔
    (s.sys.client A).aborted = false ∧ ∃ op k, s.task A = some ⟨op, .acquire l k, true⟩ := by
  unfold Fs.asking
  constructor
  · intro h
    split_ifs at h with hab
    split at h
    · rename_i op l' k htask
      cases h
      exact ⟨by simpa using hab, op, k, htask⟩
    · cases h
  · rintro ⟨hrun,op,k,htask⟩
    rw [if_neg (by simp [hrun]), htask]

/-- The locks that a thread has are those that it knows something of. -/
theorem has_known (hinv : s.Inv κ) (hrun : (s.sys.client A).aborted = false)
    (hd : s.doing A = some (op, r)) (hl : (s.sys.thread A 0).Has l) : κ A l ≠ none := by
  have hheld : ∀ {K' : Knowledge}, ((s.sys.client A).localAt s.sys.table 0).Agrees K' →
      (∀ l read buf op', .load l read buf op' ∉ (s.sys.thread A 0).calls) → K' l ≠ none := by
    intro K' ha hno
    obtain hl | ⟨read,buf,op',hload⟩ := hl
    · exact (ha.held l).mp hl
    · exact absurd hload (hno l read buf op')
  cases hinv.standing A with
  | gone hab =>
    rw [hrun] at hab
    cases hab
  | idle htask => simp [Fs.doing, htask] at hd
  | ready _ _ hc ha => exact hheld ha (by simp [hc])
  | busy htask _ hin =>
    have hcalls : ((s.sys.client A).localAt s.sys.table 0).th.calls =
      (s.sys.thread A 0).calls := rfl
    cases hin with
    | acquiring _ hc ha => exact hheld ha (by simp [← hcalls, hc])
    | @releasing l' k pc _ hc _ ha =>
      intro hn
      refine hheld ha (by simp [← hcalls, hc]) ?_
      by_cases hll : l = l'
      · rw [hll, Function.update_self]
      · rw [Function.update_of_ne hll, hn]
    | @loading l' op' read buf _ hc hk ha =>
      intro hn
      by_cases hll : l = l'
      · rw [hll, hk] at hn
        cases hn
      · obtain hl | ⟨read',buf',op'',hload⟩ := hl
        · have := (ha.held l).mp hl
          rw [Function.update_of_ne hll] at this
          exact this hn
        · rw [← hcalls, hc, List.mem_singleton] at hload
          cases hload
          exact hll rfl

/-- A thread at an `acquire` has its locks without loading anything. -/
theorem has_holding (hinv : s.Inv κ) (hrun : (s.sys.client A).aborted = false)
    (ht : s.task A = some ⟨op, .acquire l k, c⟩) (hj : (s.sys.thread A 0).Has j) :
    s.holding A j = true := by
  have hno : ∀ l read buf op', .load l read buf op' ∉ (s.sys.thread A 0).calls := by
    intro l' read buf op' hload
    cases hinv.standing A with
    | gone hab =>
      rw [hrun] at hab
      cases hab
    | idle htask =>
      rw [ht] at htask
      cases htask
    | ready _ _ hc =>
      rw [hc] at hload
      cases hload
    | busy htask _ hin =>
      rw [ht] at htask
      cases htask
      have hcalls : ((s.sys.client A).localAt s.sys.table 0).th.calls = (s.sys.thread A 0).calls :=
        rfl
      cases hin with
      | acquiring _ hc | releasing _ hc =>
        rw [← hcalls, hc, List.mem_singleton] at hload
        cases hload
      | loading hm => cases hm
  obtain ⟨read,hmem⟩ | ⟨read,buf,op',hload⟩ := hj
  · unfold Fs.holding Thread.section?
    rw [List.lookup_isSome_iff]
    exact ⟨_, hmem, by simp⟩
  · exact absurd hload (hno j read buf op')

/-- A thread that has a lock and asks for another one has the lock of its directory. -/
theorem asking_stage (hst : op.Stands (.acquire l k) K) (hj : K j ≠ none) :
    (∃ b, K = .only op.main (.content b)) ∧ (op.typed = true → isfile op.main = false) ∧
        ((∃ name, op = .mkdir op.main name) ∨ isfile l = true) ∨
      op = .mount ∧ l = 2 ∧ K = .only 1 .absent := by
  generalize hr : Prog.acquire l k = r at hst
  cases hst <;> cases hr
  case enter => exact absurd rfl hj
  case tryInum name mask buf b d hm hi =>
    refine Or.inl ⟨⟨b, rfl⟩, ?_, ?_⟩
    · intro htyped
      have := hm.makes
      cases op <;> simp_all [Op.makes, Op.typed, Op.main]
    · have := hm.makes
      cases op with
      | mkdir p name => exact Or.inl ⟨name, rfl⟩
      | create p name =>
        right
        cases this
        exact drawn_file hi
      | _ => cases this
  case find name b d hd =>
    refine Or.inl ⟨⟨b, rfl⟩, ?_, Or.inr hd.file⟩
    intro htyped
    rw [hd.unlinks] at htyped
    simpa [Op.typed] using htyped
  case tmp hop => exact Or.inr ⟨hop, rfl, rfl⟩

/-- On a cycle there is nobody but `mkdir`. -/
theorem waits_mkdir (hinv : s.Inv κ) (hroot : s.Rooted κ)
    (htyped : ∀ A op p, s.doing A = some (op, p) → op.typed = true) (hBA : s.Waits B A)
    (hAC : s.Waits A C) (hC : ∃ D, s.Waits C D) :
    ∃ p name l k, s.task A = some ⟨.mkdir p name, .acquire l k, true⟩ ∧ (s.sys.thread A 0).Has p ∧
      (s.sys.thread C 0).Has l := by
  obtain ⟨j,-,hrunA,hj⟩ := hBA
  obtain ⟨l,haskA,hrunC,hl⟩ := hAC
  obtain ⟨D,m,haskC,-⟩ := hC
  obtain ⟨-,op,k,htA⟩ := asking_iff.mp haskA
  obtain ⟨-,op',k',htC⟩ := asking_iff.mp haskC
  have hdA := doing_eq htA
  have hdC := doing_eq htC
  have hkA := has_known hinv hrunA hdA hj
  have hkC := has_known hinv hrunC hdC hl
  have hknownA := known (l := 1) hinv hrunA hdA (by simp)
  have hstA := asking_stage (path_stands (running_path hinv hrunA hdA)) hkA
  -- the lock is that of the directory in which `C` works
  have hdir : isfile l = false ∧ (s.sys.content 1 = none → l ≠ 2) := by
    rcases asking_stage (path_stands (running_path hinv hrunC hdC)) hkC with
      ⟨⟨b,hK⟩,hdir,-⟩ | ⟨-,-,hK⟩
    · have hmain : l = op'.main := by
        by_contra hne
        rw [hK, only_of_ne hne] at hkC
        exact hkC rfl
      have hcontent := (known (l := op'.main) hinv hrunC hdC (by simp)).2.1 b
        (by rw [hK, only_self])
      rw [hmain]
      exact ⟨hdir (htyped C op' _ hdC), fun hnone _ => hroot.root _ b hcontent hnone⟩
    · have hmain : l = 1 := by
        by_contra hne
        rw [hK, only_of_ne hne] at hkC
        exact hkC rfl
      rw [hmain]
      exact ⟨by decide, fun _ => by decide⟩
  rcases hstA with ⟨⟨b,hK⟩,-,⟨name,hop⟩ | hfile⟩ | ⟨-,rfl,hK⟩
  · rw [hop] at htA
    refine ⟨op.main, name, l, k, htA, ?_, hl⟩
    exact (known hinv hrunA hdA (by simp)).1 (by rw [hK, only_self]; simp)
  · rw [hdir.1] at hfile
    cases hfile
  · exact absurd rfl (hdir.2 (hknownA.2.2 (by rw [hK, only_self])))

/-- A thread that is in `acquire` after a step was there before, or has just called it, and it had
the locks that it has. -/
theorem asks_back (hinv : s.Inv κ) (hs : s.Steps e s') (hrun' : (s'.sys.client A).aborted = false)
    (ht : s'.task A = some ⟨op, .acquire l k, true⟩) :
    (s.task A = some ⟨op, .acquire l k, true⟩ ∨
      e = .call A ∧ s.task A = some ⟨op, .acquire l k, false⟩) ∧
    ∀ j, (s'.sys.thread A 0).Has j → (s.sys.thread A 0).Has j := by
  have hrun := running_back hs A hrun'
  have hd' := doing_eq ht
  -- nothing that the thread knows has changed
  have hknown : s'.Inv κ → s.doing A = some (op, .acquire l k) →
      ∀ j, (s'.sys.thread A 0).Has j → (s.sys.thread A 0).Has j := by
    intro hinv' hd j hj
    exact (known hinv hrun hd (by simp)).1 (has_known hinv' hrun' hd' hj)
  cases hs with
  | @start B op' htask =>
    rw [task_setTask] at ht
    split_ifs at ht with hB
    · simp at ht
    · exact ⟨Or.inl ht, fun _ hj => hj⟩
  | @draw B a b op' mask k' htask =>
    rw [task_setTask] at ht
    split_ifs at ht with hB
    · cases ht
    · exact ⟨Or.inl ht, fun _ hj => hj⟩
  | @called B op' p m sys htask hm hsys hbusy =>
    have hinv' := inv_called hinv htask hm hsys hbusy
    rw [task_setTask] at ht
    split_ifs at ht with hB
    · subst hB
      cases ht
      exact ⟨Or.inr ⟨rfl, htask⟩, hknown hinv' (doing_eq htask)⟩
    · have ht' : s.task A = some ⟨op, .acquire l k, true⟩ := ht
      exact ⟨Or.inl ht', hknown hinv' (doing_eq ht')⟩
  | @answered B op' p p' m sys htask hm hsys hidle hp =>
    rw [task_setTask] at ht
    split_ifs at ht with hB
    · cases ht
    · refine ⟨Or.inl ht, fun j hj => ?_⟩
      have hcl := client_others hsys (Ne.symm hB)
      unfold Sys.thread at hj ⊢
      rw [← hcl]
      exact hj
  | @inner e' sys he hsys hbusy =>
    have ht' : s.task A = some ⟨op, .acquire l k, true⟩ := ht
    exact ⟨Or.inl ht', hknown (inv_inner hinv he hsys hbusy) (doing_eq ht')⟩
  | @returned B m op' p p' sys he htask hsys hidle hp =>
    rw [task_setTask] at ht
    split_ifs at ht with hB
    · cases ht
    · refine ⟨Or.inl ht, fun j hj => ?_⟩
      have hcl := client_others hsys (Ne.symm hB)
      unfold Sys.thread at hj ⊢
      rw [← hcl]
      exact hj
  | @finish B op' res htask =>
    rw [task_erase] at ht
    split_ifs at ht with hB
    exact ⟨Or.inl ht, fun _ hj => hj⟩

/-- A step that keeps drawn numbers apart closes no cycle. -/
theorem acyclic_step (hinv : s.Inv κ) (hinv' : s'.Inv κ') (hroot' : s'.Rooted κ')
    (htyped' : ∀ A op p, s'.doing A = some (op, p) → op.typed = true)
    (h : ∀ A, ¬ TransGen s.Waits A A) (hapart : s.drawsApart e = true) (hs : s.Steps e s') (A : ℕ) :
    ¬ TransGen s'.Waits A A := by
  intro hcycle
  refine h A (cycle_of_edges ?_ hcycle .refl)
  rintro B C hB hC hBC
  obtain ⟨B₀,hB₀,-⟩ := cycle_prev hB
  obtain ⟨C₁,hC₁,hcyc₁⟩ := cycle_next hC
  obtain ⟨C₂,hC₂,-⟩ := cycle_next hcyc₁
  obtain ⟨p,name,l,k,htB,hpB,hl⟩ := waits_mkdir hinv' hroot' htyped' hB₀ hBC ⟨C₁, hC₁⟩
  obtain ⟨p',name',l',k',htC,hpC,-⟩ := waits_mkdir hinv' hroot' htyped' hBC hC₁ ⟨C₂, hC₂⟩
  obtain ⟨m,haskB,hrunC,-⟩ := hBC
  have hrunB := (asking_iff.mp haskB).1
  obtain ⟨holdB,hhasB⟩ := asks_back hinv hs hrunB htB
  obtain ⟨holdC,hhasC⟩ := asks_back hinv hs hrunC htC
  have hrunB₀ := running_back hs B hrunB
  have hrunC₀ := running_back hs C hrunC
  have hlC := hhasC l hl
  obtain htB₀ | ⟨rfl,htB₀⟩ := holdB
  · exact ⟨l, asking_iff.mpr ⟨hrunB₀, _, k, htB₀⟩, hrunC₀, hlC⟩
  · -- the step closes no cycle: `C` is not such a `mkdir`
    exfalso
    have hholdB := has_holding hinv hrunB₀ htB₀ (hhasB p hpB)
    have howner := (has_owner hinv.ordered hlC).1
    simp only [Fs.drawsApart, htB₀, hholdB, howner, Bool.not_true, Bool.false_or, Bool.not_eq_true',
      Bool.and_eq_false_iff, Bool.or_eq_false_iff, decide_eq_false_iff_not] at hapart
    obtain htC₀ | ⟨heq,htC₀⟩ := holdC
    · obtain hno | ⟨-,hno⟩ := hapart
      · rw [has_holding hinv hrunC₀ htC₀ hlC] at hno
        cases hno
      · unfold Fs.drawing at hno
        rw [htC₀] at hno
        dsimp only at hno
        rw [has_holding hinv hrunC₀ htC₀ (hhasC p' hpC)] at hno
        cases hno
    · cases heq
      obtain hno | ⟨hno,-⟩ := hapart
      · rw [has_holding hinv hrunC₀ htC₀ hlC] at hno
        cases hno
      · exact hno rfl

/-- Runs in which the kernel asks for directories where they are due and every `mkdir` keeps apart
from the others. -/
abbrev UncrossedRun (es : List FsEvent) : Prop :=
  TraceSystem.Meets Fs.step (fun s e => (e.starts Op.typed && s.drawsApart e) = true) Fs.init es

theorem waits_acyclic {es : List FsEvent} (hc : UncrossedRun es)
    (hrun : Fs.run es = some s) (A : ℕ) :
    ¬ TransGen s.Waits A A := by
  -- the root is known and the calls are typed all along, which the step lemma needs
  have main : ∃ κ, s.Inv κ ∧ s.Rooted κ ∧ (∀ A op p, s.doing A = some (op, p) → op.typed = true) ∧
      ∀ A, ¬ TransGen s.Waits A A := by
    refine moves_run (I := fun s κ => s.Rooted κ ∧
      (∀ A op p, s.doing A = some (op, p) → op.typed = true) ∧ ∀ A, ¬ TransGen s.Waits A A)
      ⟨rooted_init, ?_, ?_⟩ ?_ hc hrun
    · intro A op p hd
      simp [Fs.init, Fs.doing, Fs.task] at hd
    · intro A hcycle
      obtain ⟨B,⟨l,hask,-⟩,-⟩ := cycle_next hcycle
      obtain ⟨-,op,k,htask⟩ := asking_iff.mp hask
      simp [Fs.init, Fs.task] at htask
    · intro s κ e s' κ' hinv hI hC hinv' hm hs
      obtain ⟨hroot,htyped,h⟩ := hI
      rw [Bool.and_eq_true] at hC
      have hroot' := rooted_moves hinv hroot hm (running_back hs)
      have htyped' : ∀ A op p, s'.doing A = some (op, p) → op.typed = true := by
        apply doing_moves hm htyped
        rintro A op rfl
        exact hC.1
      exact ⟨hroot', htyped', acyclic_step hinv hinv' hroot' htyped' h hC.2 hs⟩
  obtain ⟨_,-,-,-,h⟩ := main
  exact h A

theorem waits_of_holding (hask : s.asking A = some l) (hrun : (s.sys.client B).aborted = false)
    (hhold : s.holding B l = true) : s.Waits A B := by
  obtain ⟨r,hr⟩ := Option.isSome_iff_exists.mp hhold
  exact ⟨l, hask, hrun, Or.inl ⟨r, section_mem hr⟩⟩

/-- A client makes a directory and draws a number that is in use, and then a free one; another one
waits meanwhile for the lock of the directory that it works in. -/
def apartDraws : List FsEvent :=
  mounts 0 ++ [.start 0 (.mkdir 1 [97])] ++ retakes 0 ++ [.call 0, .draw 0 0 2] ++ retakes 0 ++
    [.call 0] ++ frees 0 ++ [.draw 0 0 5] ++ takes 0 ++ [.start 1 (.lookup 1 [97]), .call 1]

theorem waits_acyclic_two : ∃ s, Fs.run apartDraws = some s ∧ s.Waits 1 0 ∧
    ¬ TransGen s.Waits 1 1 := by
  obtain ⟨s,hrun,hask,hab,hhold⟩ := TraceSystem.reaches_of_any Fs.step
    (fun s => s.asking 1 = some 1 ∧ (s.sys.client 0).aborted = false ∧ s.holding 0 1 = true)
    Fs.init apartDraws (by decide +kernel)
  exact ⟨s, hrun, waits_of_holding hask hab hhold, waits_acyclic (by decide +kernel) hrun 1⟩

/-- A `mkdir` in the root directory draws the number of the root directory. -/
def ownParent : List FsEvent :=
  mounts 0 ++ [.start 0 (.mkdir 1 [97])] ++ retakes 0 ++ [.call 0, .draw 0 0 1, .call 0]

theorem mkdir_waits_for_itself : ∃ s, Fs.run ownParent = some s ∧
    (∀ e ∈ ownParent, e.starts Op.typed = true) ∧ TransGen s.Waits 0 0 := by
  obtain ⟨s,hrun,hask,hab,hhold⟩ := TraceSystem.reaches_of_any Fs.step
    (fun s => s.asking 0 = some 1 ∧ (s.sys.client 0).aborted = false ∧ s.holding 0 1 = true)
    Fs.init ownParent (by decide +kernel)
  exact ⟨s, hrun, by decide +kernel, .single (waits_of_holding hask hab hhold)⟩

end

end DisconnectedYfs.YFS
