import DisconnectedYfs.YFSOperations
import DisconnectedYfs.YFSCachedCopies

/-! The file system: the system of clients and servers in which each client runs, one after the
other on its one FUSE thread, the operations of `yfs_client.cc`. No client disconnects here. -/
namespace DisconnectedYfs.YFS
open Std

/-- The operation a client is in, and what is left of it; `called` says that its next call has been
made and has not returned. -/
structure Task where
  op : Op
  prog : Prog
  called : Bool

/-- An operation that has thrown stays where it is: its process is gone. -/
structure Fs where
  sys : Sys := {}
  tasks : ExtTreeMap ℕ Task := ∅

def Fs.task (s : Fs) (A : ℕ) : Option Task := s.tasks[A]?

def Fs.setTask (s : Fs) (A : ℕ) (j : Task) : Fs := { s with tasks := s.tasks.insert A j }

/-- The file that the operation will still remove after releasing locks. -/
def Prog.pending : Prog → Option ℕ
  | .remove f _ => some f
  | .release _ k => k.pending
  | _ => none

/-- The next call as a move of the thread. -/
def Prog.move : Prog → Option Move
  | .acquire l _ => some (.callAcquire l)
  | .release l k => some (.callRelease l (k.pending = some l))
  | .get l _ => some (.access l .get)
  | .getattr l _ => some (.access l .getattr)
  | .put l buf _ => some (.put l buf)
  | .rename l name _ => some (.access l (.rename name))
  | .remove l _ => some (.unlinkRemove l)
  | .ret _ | .throw | .alloc _ _ => none

/-- What the call returns, read off the client once it has returned. -/
def Client.answer (c : Client) : Prog → Act
  | .acquire l _ => .acquire l (if ((c.thread 0).section? l).isSome then .ok else .disconnected)
  | .release l _ => .release l
  | .get l _ => .get l (
    match c.localExtent[l]? with
    | some e => .ok e.extent
    | none => .error .noent)
  | .getattr l _ => .getattr l (
    match c.localExtent[l]? with
    | some e => .ok e.attr
    | none => .error .noent)
  | .put l buf _ => .put l buf (.ok ())
  | .rename l name _ => .rename l name (
    match c.localExtent[l]? with
    | some _ => .ok ()
    | none => .error .noent)
  | .remove l _ => .remove l (.ok ())
  | .ret _ | .throw | .alloc _ _ => .release 0

/-- The operation goes on if its call has returned. -/
def Fs.resume (s : Fs) (A : ℕ) : Fs :=
  match s.task A with
  | some ⟨op, p, true⟩ =>
    let c := s.sys.client A
    if c.aborted = false ∧ (c.thread 0).calls = [] then
      match p.step (c.answer p) with
      | some p' => s.setTask A ⟨op, p', false⟩
      | none => s
    else s
  | _ => s

/-- Only a step of the thread itself can be a return. -/
def Fs.after (s : Fs) : Event → Fs
  | .client A _ _ => s.resume A
  | _ => s

/-- `inner` is what the lock client, its handlers and the servers do on the way to an answer. -/
inductive FsEvent where
  | start (A : ℕ) (op : Op)
  | draw (A a b : ℕ)
  | call (A : ℕ)
  | inner (e : Event)
  | finish (A : ℕ)
deriving DecidableEq, Repr

/-- The events that are not calls of an application. -/
def Event.isInner : Event → Bool
  | .client _ T m =>
    match m with
    | .turn _ _ | .wake | .loadAttr => T = 0
    | _ => false
  | .disconnect _ => false
  | _ => true

def Fs.step (s : Fs) : FsEvent → Option Fs
  | .start A op =>
    if (s.task A).isNone ∧ (s.sys.client A).aborted = false then
      some (s.setTask A ⟨op, op.prog, false⟩)
    else none
  | .draw A a b =>
    match s.task A with
    | some ⟨op, .alloc mask k, false⟩ =>
      if (s.sys.client A).aborted then none
      else some (s.setTask A ⟨op, .tryInum mask k (randNum a b ||| mask), false⟩)
    | _ => none
  | .call A =>
    match s.task A with
    | some ⟨op, p, false⟩ =>
      p.move.bind (fun m => (s.sys.step (.client A 0 m)).map (fun sys =>
        (({ s with sys := sys } : Fs).setTask A ⟨op, p, true⟩).resume A))
    | _ => none
  | .inner e =>
    if e.isInner then (s.sys.step e).map (fun sys => ({ s with sys := sys } : Fs).after e) else none
  | .finish A =>
    match s.task A with
    | some ⟨_, .ret _, false⟩ => some { s with tasks := s.tasks.erase A }
    | _ => none

def Fs.init : Fs := {}

abbrev Fs.run : List FsEvent → Option Fs := TraceSystem.run Fs.step Fs.init

/-- The thread of `A` is inside a call, or its process has aborted. -/
def Sys.busy (s : Sys) (A : ℕ) : Prop := (s.client A).aborted = true ∨ (s.thread A 0).calls ≠ []

/-- The steps of the file system: a call returns at once, or with a later step of its thread. -/
inductive Fs.Steps (s : Fs) : FsEvent → Fs → Prop
  | start {A op} (htask : s.task A = none) : Steps s (.start A op)
      (s.setTask A ⟨op, op.prog, false⟩)
  | draw {A a b op mask k} (htask : s.task A = some ⟨op, .alloc mask k, false⟩)
      (hrun : (s.sys.client A).aborted = false) :
      Steps s (.draw A a b) (s.setTask A ⟨op, .tryInum mask k (randNum a b ||| mask), false⟩)
  | called {A op p m sys} (htask : s.task A = some ⟨op, p, false⟩) (hm : p.move = some m)
      (hsys : s.sys.step (.client A 0 m) = some sys) (hbusy : sys.busy A) :
      Steps s (.call A) (({ s with sys := sys } : Fs).setTask A ⟨op, p, true⟩)
  | answered {A op p p' m sys} (htask : s.task A = some ⟨op, p, false⟩) (hm : p.move = some m)
      (hsys : s.sys.step (.client A 0 m) = some sys) (hidle : ¬ sys.busy A)
      (hp : p.step ((sys.client A).answer p) = some p') :
      Steps s (.call A) (({ s with sys := sys } : Fs).setTask A ⟨op, p', false⟩)
  | inner {e sys} (he : e.isInner = true) (hsys : s.sys.step e = some sys)
      (hbusy : ∀ A m op p, e = .client A 0 m → s.task A = some ⟨op, p, true⟩ → p.move ≠ none →
        sys.busy A) : Steps s (.inner e) { s with sys := sys }
  | returned {A m op p p' sys} (he : (Event.client A 0 m).isInner = true)
      (htask : s.task A = some ⟨op, p, true⟩) (hsys : s.sys.step (.client A 0 m) = some sys)
      (hidle : ¬ sys.busy A) (hp : p.step ((sys.client A).answer p) = some p') :
      Steps s (.inner (.client A 0 m)) (({ s with sys := sys } : Fs).setTask A ⟨op, p', false⟩)
  | finish {A op r} (htask : s.task A = some ⟨op, .ret r, false⟩) :
      Steps s (.finish A) { s with tasks := s.tasks.erase A }

section
variable {s s' : Fs} {A B : ℕ} {op : Op} {p p' : Prog} {e : Event}

@[simp] theorem task_setTask (s : Fs) (A B : ℕ) (j : Task) :
    (s.setTask A j).task B = if A = B then some j else s.task B := by
  simp only [Fs.setTask, Fs.task, ExtTreeMap.getElem?_insert, LawfulEqCmp.compare_eq_iff_eq]

@[simp] theorem sys_setTask (s : Fs) (A : ℕ) (j : Task) : (s.setTask A j).sys = s.sys := rfl

/-- Every call can be answered. -/
theorem step_answer (c : Client) {m : Move} (h : p.move = some m) :
    ∃ p', p.step (c.answer p) = some p' := by
  cases p with
  | ret | throw | alloc => cases h
  | _ => simp [Prog.step, Client.answer]

theorem not_busy_iff {sys : Sys} :
    ¬ sys.busy A ↔ (sys.client A).aborted = false ∧ ((sys.client A).thread 0).calls = [] := by
  simp [Sys.busy, Sys.thread]

theorem setTask_setTask (s : Fs) (A : ℕ) (i j : Task) :
    (s.setTask A i).setTask A j = s.setTask A j := by
  simp only [Fs.setTask]
  congr 1
  apply ExtTreeMap.ext_getElem?
  intro k
  simp only [ExtTreeMap.getElem?_insert]
  split_ifs <;> rfl

theorem resume_busy (h : s.sys.busy A) : s.resume A = s := by
  unfold Fs.resume
  split
  · rw [if_neg]
    intro hidle
    exact not_busy_iff.mpr hidle h
  · rfl

theorem resume_idle (htask : s.task A = some ⟨op, p, true⟩) (h : ¬ s.sys.busy A)
    (hp : p.step ((s.sys.client A).answer p) = some p') :
    s.resume A = s.setTask A ⟨op, p', false⟩ := by
  unfold Fs.resume
  rw [htask]
  dsimp only
  rw [if_pos (not_busy_iff.mp h), hp]

/-- There is no call to return from. -/
theorem resume_same (h : ∀ op p, s.task A = some ⟨op, p, true⟩ → p.move = none) :
    s.resume A = s := by
  unfold Fs.resume
  split
  · rename_i op p htask
    dsimp only
    split_ifs
    · have hm := h op p htask
      cases p <;> first | rfl | cases hm
    · rfl
  · rfl

theorem inner_steps {sys : Sys} (he : e.isInner = true) (hsys : s.sys.step e = some sys) :
    s.Steps (.inner e) (({ s with sys := sys } : Fs).after e) := by
  cases e with
  | client A T m =>
    obtain rfl : T = 0 := by
      cases m <;> first | cases he | exact of_decide_eq_true he
    dsimp only [Fs.after]
    by_cases hb : sys.busy A
    · rw [resume_busy hb]
      refine .inner he hsys ?_
      intro A' m' op p heq _ _
      cases heq
      exact hb
    by_cases hj : ∃ op p, s.task A = some ⟨op, p, true⟩ ∧ p.move ≠ none
    · obtain ⟨op,p,hj,hm⟩ := hj
      obtain ⟨m',hm'⟩ := Option.ne_none_iff_exists'.mp hm
      obtain ⟨p',hp⟩ := step_answer (sys.client A) hm'
      rw [resume_idle (s := { s with sys := sys }) hj hb hp]
      exact .returned he hj hsys hb hp
    · rw [resume_same]
      · refine .inner he hsys ?_
        intro A' m' op p heq htask hm
        cases heq
        exact absurd ⟨op, p, htask, hm⟩ hj
      · intro op p htask
        by_contra hm
        exact hj ⟨op, p, htask, hm⟩
  | disconnect A => cases he
  | _ => exact .inner he hsys (fun _ _ _ _ heq => by cases heq)

theorem fs_steps {e : FsEvent} (h : s.step e = some s') : s.Steps e s' := by
  cases e with
  | start A op =>
    simp only [Fs.step] at h
    split_ifs at h with hj
    cases h
    exact .start (Option.isNone_iff_eq_none.mp hj.1)
  | draw A a b =>
    simp only [Fs.step] at h
    split at h
    · rename_i hj
      split_ifs at h with hab
      cases h
      exact .draw hj (by simpa using hab)
    · cases h
  | call A =>
    simp only [Fs.step] at h
    split at h
    · rename_i op p hj
      obtain ⟨m,hm,h⟩ := Option.bind_eq_some_iff.mp h
      obtain ⟨sys,hsys,rfl⟩ := Option.map_eq_some_iff.mp h
      by_cases hb : sys.busy A
      · rw [resume_busy hb]
        exact .called hj hm hsys hb
      · obtain ⟨p',hp⟩ := step_answer (sys.client A) hm
        have htask : (({ s with sys := sys } : Fs).setTask A ⟨op, p, true⟩).task A =
            some ⟨op, p, true⟩ := by
          rw [task_setTask, if_pos rfl]
        rw [resume_idle htask hb hp, setTask_setTask]
        exact .answered hj hm hsys hb hp
    · cases h
  | inner e =>
    simp only [Fs.step] at h
    split_ifs at h with he
    obtain ⟨sys,hsys,rfl⟩ := Option.map_eq_some_iff.mp h
    exact inner_steps he hsys
  | finish A =>
    simp only [Fs.step] at h
    split at h
    · rename_i hj
      cases h
      exact .finish hj
    · cases h

end

/-- Pieces of runs: a call takes a lock that is free at the server, or that the client has cached,
or gives one back. -/
def takes (A : ℕ) : List FsEvent :=
  [.call A, .inner (.client A 0 (.turn 0 0)), .inner (.client A 0 (.turn 0 0)), .inner (.serve A 0),
    .inner (.client A 0 .wake)]

def retakes (A : ℕ) : List FsEvent :=
  [.call A, .inner (.client A 0 (.turn 0 0)), .inner (.client A 0 (.turn 0 0))]

/-- A call takes a lock that another client has cached, and not in use. -/
def wrests (A l : ℕ) : List FsEvent :=
  [.call A, .inner (.client A 0 (.turn 0 0)), .inner (.client A 0 (.turn 0 0)), .inner (.serve A 0),
    .inner (.revoke A 0), .inner (.serveRevoked A 0), .inner (.revoked A 0),
    .inner (.client A 0 .wake), .inner (.retry l A), .inner (.client A 0 .wake),
    .inner (.serve A 0), .inner (.client A 0 .wake)]

def frees (A : ℕ) : List FsEvent := [.call A, .inner (.client A 0 (.turn 0 0))]

/-- The first client starts, and makes the root directory. -/
def mounts (A : ℕ) : List FsEvent :=
  [.start A .mount] ++ takes A ++ [.call A] ++ takes A ++ [.call A, .call A] ++
    frees A ++ frees A ++ [.finish A]

/-- It makes a file in the root directory, with the number that `rand()` gives. -/
def creates (A : ℕ) (name : Str) (n : ℕ) : List FsEvent :=
  [.start A (.create 1 name)] ++ retakes A ++ [.call A, .draw A 0 n] ++ takes A ++
    [.call A, .call A, .call A, .call A] ++ frees A ++ frees A ++ [.finish A]

end DisconnectedYfs.YFS
