import DisconnectedYfs.YFSOperations

/-! Every lock that an operation gets, it releases once, whatever the lock client and the extent
cache answer; the exception is the lock that `create` and `mkdir` take without looking at the
answer. -/
namespace DisconnectedYfs.YFS
open Std

/-- `acquire(l)` returned `OK`. -/
def Act.acquires (l : ℕ) : Act → Bool
  | .acquire lid .ok => lid = l
  | _ => false

def Act.releases (l : ℕ) : Act → Bool
  | .release lid => lid = l
  | _ => false

/-- The calls that change the extent cache, up to access times and clean copies. -/
def Act.writes : Act → Bool
  | .put _ _ _ | .rename _ _ _ | .remove _ _ => true
  | _ => false

/-- `acquire` returns `OK` or `DISCONNECTED`. -/
def Act.possible : Act → Bool
  | .acquire _ .retry => false
  | _ => true

/-- The operation has returned, or an exception has ended it. -/
def Prog.ended : Prog → Bool
  | .ret _ | .throw => true
  | _ => false

/-- An operation from its first call to its end, with any answers to its calls. -/
structure Execution (op : Op) (as : List Act) (p : Prog) : Prop where
  run : TraceSystem.run Prog.step op.prog as = some p
  possible : ∀ a ∈ as, a.possible = true
  ended : p.ended = true

structure Balanced (as : List Act) (p : Prog) : Prop where
  once : ∀ l, as.countP (Act.releases l) = as.countP (Act.acquires l)
  owned : ∀ pre suf, as = pre ++ suf → ∀ l,
    pre.countP (Act.releases l) ≤ pre.countP (Act.acquires l)
  refused : ∀ l, .acquire l .disconnected ∈ as →
    p = .ret (.error .disconnected) ∧ ∀ a ∈ as, a.writes = false

/-- The directory whose contents the operation reads first. -/
def Op.directory : Op → Option ℕ
  | .create p _ | .mkdir p _ | .unlink p _ | .lookup p _ | .getdirContents p => some p
  | _ => none

/-- The lock of a number that `rand()` gave was not refused, and the directory could be parsed. -/
structure Favourable (op : Op) (as : List Act) : Prop where
  drawn : ∀ a b l, ¬ [.draw a b, .acquire l .disconnected] <:+: as
  parsed : ∀ d s buf suf, op.directory = some d → as = .acquire d s :: .get d (.ok buf) :: suf →
    parseDir buf ≠ none

/-- What the operation has to do with the locks `held`, if it has changed the cache (`wrote`) or
was refused a lock. -/
def Prog.Keeps : List ℕ → Bool → Bool → Prog → Prop
  | held, _, refused, .ret r => held = [] ∧ (refused = true → r = .error .disconnected)
  | held, _, _, .throw => held ≠ []
  | held, wrote, refused, .acquire l k => wrote = false ∧ refused = false ∧
      Keeps (l :: held) false false (k .ok) ∧ Keeps held false true (k .disconnected)
  | held, wrote, refused, .release l k => l ∈ held ∧ Keeps (held.erase l) wrote refused k
  | held, wrote, refused, .get _ k => ∀ r, Keeps held wrote refused (k r)
  | held, wrote, refused, .getattr _ k => ∀ r, Keeps held wrote refused (k r)
  | held, _, refused, .put _ _ k => refused = false ∧ ∀ r, Keeps held true refused (k r)
  | held, _, refused, .rename _ _ k => refused = false ∧ ∀ r, Keeps held true refused (k r)
  | held, _, refused, .remove _ k => refused = false ∧ ∀ r, Keeps held true refused (k r)
  | held, wrote, refused, .alloc _ k =>
    wrote = false ∧ refused = false ∧ ∀ i, Keeps (i :: held) false false (k i)

section Keeps
variable {held : List ℕ} {wrote refused : Bool} {p : Prog} {op : Op}

/-- An operation that begins with `acquire(l)` and has nothing to give back when refused. -/
theorem keeps_lock {l : ℕ} {k : Prog} (h : Prog.Keeps [l] false false k) :
    Prog.Keeps [] false false (.lock l k) := by
  simp only [Prog.lock, Prog.Keeps, true_and]
  exact ⟨by simpa using h, by simp [Prog.Keeps]⟩

theorem keeps_fetch {l : ℕ} {k : Str → Prog} (h : ∀ buf, Prog.Keeps [l] false false (k buf)) :
    Prog.Keeps [l] false false (.fetch l k) := by
  intro r
  cases r with
  | error e => simp [Prog.Keeps]
  | ok buf => exact h buf

theorem keeps_parse {buf : Str} {k : Dir → Prog} (hheld : held ≠ [])
    (h : ∀ d, Prog.Keeps held wrote refused (k d)) :
    Prog.Keeps held wrote refused (.parse buf k) := by
  unfold Prog.parse
  split
  · exact hheld
  · exact h _

theorem keeps_openDir {l : ℕ} {k : Dir → Prog} (h : ∀ d, Prog.Keeps [l] false false (k d)) :
    Prog.Keeps [] false false (YfsClient.openDir l k) :=
  keeps_lock (keeps_fetch (fun _ => keeps_parse (by simp) h))

/-- The two locks of `create` and `mkdir` are given back in the end. -/
theorem keeps_leave {p i : ℕ} {r : Except YErr Out} :
    Prog.Keeps [i, p] wrote false (.release i (.release p (.ret r))) := by
  simp [Prog.Keeps]

theorem keeps_addFile (l : ℕ) (name : Str) (d : Dir) (i : ℕ) :
    Prog.Keeps [i, l] false false (YfsClient.addFile l name d i) := by
  refine ⟨rfl, fun r => ?_⟩
  cases r with
  | error e => exact keeps_leave
  | ok _ =>
    refine ⟨rfl, fun r => ?_⟩
    cases r with
    | error e => exact keeps_leave
    | ok _ =>
      refine ⟨rfl, fun r => ?_⟩
      cases r with
      | error e => exact ⟨rfl, fun _ => keeps_leave⟩
      | ok _ => exact keeps_leave

theorem keeps_addDir (l : ℕ) (name : Str) (d : Dir) (i : ℕ) :
    Prog.Keeps [i, l] false false (YfsClient.addDir l name d i) := by
  refine ⟨rfl, fun r => ?_⟩
  cases r with
  | error e => exact keeps_leave
  | ok _ =>
    refine ⟨rfl, fun r => ?_⟩
    cases r with
    | error e => exact ⟨rfl, fun _ => keeps_leave⟩
    | ok _ => exact keeps_leave

theorem keeps_dropFile (l : ℕ) (name : Str) (d : Dir) (f : ℕ) :
    Prog.Keeps [l] false false (YfsClient.dropFile l name d f) := by
  refine ⟨rfl, rfl, ?_, ?_⟩
  · refine ⟨rfl, fun r => ?_⟩
    cases r with
    | error e => exact keeps_leave
    | ok _ => simp [Prog.Keeps]
  · simp [Prog.Keeps]

/-- All operations keep to this; the constructor does not look at what `acquire` returns. -/
theorem keeps_op (h : op ≠ .mount) : Prog.Keeps [] false false op.prog := by
  cases op with
  | mount => exact absurd rfl h
  | getfile ino =>
    refine keeps_lock (fun r => ?_)
    cases r <;> simp [Prog.Keeps]
  | getdir ino =>
    refine keeps_lock (fun r => ?_)
    simp [Prog.Keeps]
  | create l name =>
    refine keeps_openDir (fun d => ?_)
    split
    · simp [Prog.Keeps]
    · exact ⟨rfl, rfl, keeps_addFile l name d⟩
  | mkdir l name =>
    refine keeps_openDir (fun d => ?_)
    split
    · simp [Prog.Keeps]
    · exact ⟨rfl, rfl, keeps_addDir l name d⟩
  | unlink l name =>
    refine keeps_openDir (fun d => ?_)
    split
    · simp [Prog.Keeps]
    · split
      · exact keeps_dropFile l name d _
      · simp [Prog.Keeps]
  | lookup l name =>
    refine keeps_openDir (fun d => ?_)
    split <;> simp [Prog.Keeps]
  | getdirContents ino => exact keeps_openDir (fun d => by simp [Prog.Keeps])
  | setattr ino newSize =>
    refine keeps_lock (keeps_fetch (fun buf r => ?_))
    cases r with
    | error e => simp [Prog.Keeps]
    | ok a =>
      dsimp only
      split <;> simp [Prog.Keeps]
  | read ino off size => exact keeps_lock (keeps_fetch (fun buf => by simp [Prog.Keeps]))
  | write ino buf off size => exact keeps_lock (keeps_fetch (fun buf => by simp [Prog.Keeps]))

end Keeps

section Ledger
variable {as : List Act} {held held' : List ℕ} {wrote wrote' refused refused' : Bool}
  {p p' : Prog} {x : Act} {op : Op}

/-- The lock of some drawn number was refused. -/
def RefusedDraw (as : List Act) : Prop := ∃ a b l, [.draw a b, .acquire l .disconnected] <:+: as

/-- The last call was a draw. -/
def JustDrawn (as : List Act) : Prop := ∃ pre a b, as = pre ++ [.draw a b]

/-- What is known after the calls `as`. Where the lock of a drawn number was refused, there is a
lock for which the releases made and still to be made exceed the acquires. -/
structure Ledger (as : List Act) (held : List ℕ) (wrote refused : Bool) (p : Prog) : Prop where
  here : (p.Keeps held wrote refused ∧ ¬ JustDrawn as) ∨
    ∃ mask k i, p = .tryInum mask k i ∧ JustDrawn as ∧ (Prog.alloc mask k).Keeps held wrote refused
  atMost : ∀ l, as.countP (Act.acquires l) ≤ as.countP (Act.releases l)+held.count l
  exact : ¬ RefusedDraw as →
    ∀ l, as.countP (Act.acquires l) = as.countP (Act.releases l)+held.count l
  excess : RefusedDraw as →
    ∃ l, as.countP (Act.acquires l) < as.countP (Act.releases l)+held.count l
  clean : wrote = false ∨ refused = true → ∀ a ∈ as, a.writes = false
  told : ∀ l, .acquire l .disconnected ∈ as → refused = true ∨ RefusedDraw as

theorem refusedDraw_snoc : RefusedDraw (as ++ [x]) ↔
    RefusedDraw as ∨ (JustDrawn as ∧ ∃ l, x = .acquire l .disconnected) := by
  constructor
  · rintro ⟨a,b,l,hin⟩
    rcases List.infix_concat_iff.mp hin with ⟨pre,hpre⟩ | hin
    · rw [show pre ++ [Act.draw a b, .acquire l .disconnected] =
        (pre ++ [.draw a b]) ++ [.acquire l .disconnected] by simp] at hpre
      obtain ⟨h1,h2⟩ := List.append_inj' hpre rfl
      exact Or.inr ⟨⟨pre, a, b, h1.symm⟩, l, (List.singleton_inj.mp h2).symm⟩
    · exact Or.inl ⟨a, b, l, hin⟩
  · rintro (⟨a,b,l,hin⟩ | ⟨⟨pre,a,b,rfl⟩,l,rfl⟩)
    · exact ⟨a, b, l, List.infix_concat_iff.mpr (Or.inr hin)⟩
    · exact ⟨a, b, l, List.infix_concat_iff.mpr (Or.inl ⟨pre, by simp⟩)⟩

theorem justDrawn_snoc : JustDrawn (as ++ [x]) ↔ ∃ a b, x = .draw a b := by
  constructor
  · rintro ⟨pre,a,b,h⟩
    obtain ⟨-,h2⟩ := List.append_inj' h rfl
    exact ⟨a, b, List.singleton_inj.mp h2⟩
  · rintro ⟨a,b,rfl⟩
    exact ⟨as, a, b, rfl⟩

/-- A call that is accounted for in `held`. -/
theorem Ledger.extend (h : Ledger as held wrote refused p)
    (hdraw : ¬ (JustDrawn as ∧ ∃ l, x = .acquire l .disconnected))
    (hcount : ∀ l, (if x.acquires l then 1 else 0)+held.count l =
      (if x.releases l then 1 else 0)+held'.count l)
    (hhere : (p'.Keeps held' wrote' refused' ∧ ¬ JustDrawn (as ++ [x])) ∨
      ∃ mask k i, p' = .tryInum mask k i ∧ JustDrawn (as ++ [x]) ∧
        (Prog.alloc mask k).Keeps held' wrote' refused')
    (hclean : wrote' = false ∨ refused' = true →
      (wrote = false ∨ refused = true) ∧ x.writes = false)
    (htold : ((∃ l, x = .acquire l .disconnected) ∨ refused = true) → refused' = true) :
    Ledger (as ++ [x]) held' wrote' refused' p' := by
  have hrd : RefusedDraw (as ++ [x]) ↔ RefusedDraw as := by
    rw [refusedDraw_snoc]
    exact or_iff_left hdraw
  refine ⟨hhere, ?_, ?_, ?_, ?_, ?_⟩
  · intro l
    have := hcount l
    have := h.atMost l
    simp only [List.countP_append, List.countP_singleton]
    omega
  · intro hn l
    have := hcount l
    have := h.exact (fun hr => hn (hrd.mpr hr)) l
    simp only [List.countP_append, List.countP_singleton]
    omega
  · intro hr
    obtain ⟨l,hl⟩ := h.excess (hrd.mp hr)
    refine ⟨l, ?_⟩
    have := hcount l
    simp only [List.countP_append, List.countP_singleton]
    omega
  · intro hw a ha
    obtain ⟨hw',hx⟩ := hclean hw
    rcases List.mem_append.mp ha with ha | ha
    · exact h.clean hw' a ha
    · rwa [List.mem_singleton.mp ha]
  · intro l hl
    rcases List.mem_append.mp hl with hl | hl
    · rcases h.told l hl with hr | hr
      · exact Or.inl (htold (Or.inr hr))
      · exact Or.inr (hrd.mpr hr)
    · exact Or.inl (htold (Or.inl ⟨l, (List.mem_singleton.mp hl).symm⟩))

/-- The loop goes on with the number, whatever `acquire` has answered. -/
theorem keeps_probe {mask i : ℕ} {k : ℕ → Prog}
    (h : (Prog.alloc mask k).Keeps held wrote refused) :
    Prog.Keeps (i :: held) wrote refused (.get i (fun r =>
      match r with
      | .error .noent => k i
      | _ => .release i (.alloc mask k))) := by
  obtain ⟨rfl,rfl,hk⟩ := h
  have hagain : Prog.Keeps (i :: held) false false (.release i (.alloc mask k)) := by
    refine ⟨by simp, ?_⟩
    rw [List.erase_cons_head]
    exact ⟨rfl, rfl, hk⟩
  intro r
  match r with
  | .ok _ => exact hagain
  | .error .noent => exact hk i
  | .error .rpcerr => exact hagain
  | .error .ioerr => exact hagain

/-- The refused lock of a drawn number is in `held` without having been acquired. -/
theorem Ledger.refuse (h : Ledger as held false false p) (hdrawn : JustDrawn as) {i : ℕ}
    (hk : p'.Keeps (i :: held) false false) :
    Ledger (as ++ [.acquire i .disconnected]) (i :: held) false false p' := by
  have hrd : RefusedDraw (as ++ [.acquire i .disconnected]) :=
    refusedDraw_snoc.mpr (Or.inr ⟨hdrawn, i, rfl⟩)
  refine ⟨Or.inl ⟨hk, ?_⟩, ?_, fun hn => absurd hrd hn, fun _ => ⟨i, ?_⟩, ?_, fun _ _ => Or.inr hrd⟩
  · rw [justDrawn_snoc]
    rintro ⟨a,b,hab⟩
    cases hab
  · intro l
    have := h.atMost l
    simp only [List.countP_append, List.countP_singleton, Act.acquires, Act.releases,
      List.count_cons, Bool.false_eq_true, if_false]
    omega
  · have := h.atMost i
    simp only [List.countP_append, List.countP_singleton, Act.acquires, Act.releases,
      List.count_cons_self]
    simp only [Bool.false_eq_true, if_false]
    omega
  · intro hw a ha
    rcases List.mem_append.mp ha with ha | ha
    · exact h.clean hw a ha
    · rw [List.mem_singleton.mp ha]
      rfl

/-- One call of an operation. -/
theorem ledger_step (h : Ledger as held wrote refused p) (hx : x.possible = true)
    (hstep : p.step x = some p') :
    ∃ held' wrote' refused', Ledger (as ++ [x]) held' wrote' refused' p' := by
  have hstep' := step_steps hstep
  rcases h.here with ⟨hk,hnd⟩ | ⟨mask,k,i,rfl,hd,hk⟩
  · -- an ordinary call: not the one right after a draw
    have hdraw : ¬ (JustDrawn as ∧ ∃ l, x = .acquire l .disconnected) := fun hh => hnd hh.1
    cases hstep' with
    | @acquire l k r =>
      obtain ⟨rfl,rfl,hok,hdis⟩ := hk
      cases r with
      | ok =>
        refine ⟨l :: held, false, false, h.extend hdraw ?_ (Or.inl ⟨hok, ?_⟩) ?_ ?_⟩
        · intro n
          simp [Act.acquires, Act.releases, List.count_cons]
          omega
        · simp [justDrawn_snoc]
        · simp [Act.writes]
        · simp
      | disconnected =>
        refine ⟨held, false, true, h.extend hdraw ?_ (Or.inl ⟨hdis, ?_⟩) ?_ ?_⟩
        · intro n
          simp [Act.acquires, Act.releases]
        · simp [justDrawn_snoc]
        · simp [Act.writes]
        · simp
      | retry => cases hx
    | @release l k =>
      refine ⟨held.erase l, wrote, refused, h.extend hdraw ?_ (Or.inl ⟨hk.2, ?_⟩) ?_ ?_⟩
      · intro n
        simp only [Act.acquires, Act.releases, Bool.false_eq_true, if_false, decide_eq_true_eq,
          Nat.zero_add]
        by_cases hn : l = n
        · subst hn
          have := List.count_pos_iff.mpr hk.1
          rw [if_pos rfl, List.count_erase_self]
          omega
        · rw [if_neg hn, List.count_erase_of_ne (Ne.symm hn)]
          omega
      · simp [justDrawn_snoc]
      · simp [Act.writes]
      · simp
    | get r | getattr r =>
      refine ⟨held, wrote, refused, h.extend hdraw ?_ (Or.inl ⟨hk r, ?_⟩) ?_ ?_⟩
      · simp [Act.acquires, Act.releases]
      · simp [justDrawn_snoc]
      · simp [Act.writes]
      · simp
    | put r | rename r | remove r =>
      obtain ⟨rfl,hk⟩ := hk
      refine ⟨held, true, false, h.extend hdraw ?_ (Or.inl ⟨hk r, ?_⟩) ?_ ?_⟩
      · simp [Act.acquires, Act.releases]
      · simp [justDrawn_snoc]
      · simp
      · simp
    | @draw mask k a b =>
      refine ⟨held, wrote, refused, h.extend hdraw ?_ (Or.inr ⟨mask, k, _, rfl, ?_, hk⟩) ?_ ?_⟩
      · simp [Act.acquires, Act.releases]
      · exact justDrawn_snoc.mpr ⟨a, b, rfl⟩
      · simp [Act.writes]
      · simp
  · unfold Prog.tryInum at hstep'
    have hk' := hk
    obtain ⟨rfl,rfl,-⟩ := hk'
    cases hstep' with
    | acquire r =>
      cases r with
      | ok =>
        refine ⟨i :: held, false, false, h.extend ?_ ?_ (Or.inl ⟨keeps_probe hk, ?_⟩) ?_ ?_⟩
        · simp
        · intro n
          simp [Act.acquires, Act.releases, List.count_cons]
          omega
        · simp [justDrawn_snoc]
        · simp [Act.writes]
        · simp
      | disconnected => exact ⟨_, _, _, h.refuse hd (keeps_probe hk)⟩
      | retry => cases hx

theorem ledger_run (hop : op ≠ .mount) (hpos : ∀ a ∈ as, a.possible = true)
    (hrun : TraceSystem.run Prog.step op.prog as = some p) :
    ∃ held wrote refused, Ledger as held wrote refused p := by
  refine TraceSystem.run_history (I := fun as p => (∀ a ∈ as, a.possible = true) →
    ∃ held wrote refused, Ledger as held wrote refused p) ?_ ?_ hrun hpos
  · intro _
    refine ⟨[], false, false, Or.inl ⟨keeps_op hop, ?_⟩, by simp, by simp, ?_, by simp, by simp⟩
    · rintro ⟨pre,a,b,h⟩
      simp at h
    · rintro ⟨a,b,l,h⟩
      simp at h
  · intro bs x q q' _ ih hstep hpos
    obtain ⟨held,wrote,refused,hl⟩ := ih (fun a ha => hpos a (List.mem_append_left _ ha))
    exact ledger_step hl (hpos x (by simp)) hstep

end Ledger

section Throw
variable {as : List Act} {p q : Prog} {op : Op} {d : ℕ} {h : Dir → Prog}

/-- The program cannot reach an exception. -/
def Prog.Calm : Prog → Prop
  | .ret _ => True
  | .throw => False
  | .acquire _ k => ∀ r, Calm (k r)
  | .release _ k => Calm k
  | .get _ k => ∀ r, Calm (k r)
  | .getattr _ k => ∀ r, Calm (k r)
  | .put _ _ k => ∀ r, Calm (k r)
  | .rename _ _ k => ∀ r, Calm (k r)
  | .remove _ k => ∀ r, Calm (k r)
  | .alloc _ k => ∀ i, Calm (k i)

theorem calm_trace (hp : p.Calm) (hrun : TraceSystem.run Prog.step p as = some q) : q.Calm := by
  refine TraceSystem.run_invariant (I := Prog.Calm) ?_ hp hrun
  intro p a p' hp hstep
  cases step_steps hstep with
  | acquire r | get r | getattr r | put r | rename r | remove r => exact hp r
  | release => exact hp
  | @draw mask k a b =>
    intro s r
    match r with
    | .ok _ => exact hp
    | .error .noent => exact hp _
    | .error .rpcerr => exact hp
    | .error .ioerr => exact hp

theorem ended_run (hp : p.ended = true) (hrun : TraceSystem.run Prog.step p as = some q) :
    as = [] ∧ q = p := by
  cases as with
  | nil =>
    cases hrun
    exact ⟨rfl, rfl⟩
  | cons a as =>
    obtain ⟨p',hp',-⟩ := Option.bind_eq_some_iff.mp hrun
    cases step_steps hp' <;> cases hp

/-- Only the constructor of `yfs_dir` throws, at the start of the operations that read a
directory. -/
theorem op_calm (hop : op.directory = none) : op.prog.Calm := by
  cases op with
  | create | mkdir | unlink | lookup | getdirContents => cases hop
  | mount =>
    intro _ r
    match r with
    | .ok _ | .error .rpcerr | .error .ioerr => trivial
    | .error .noent => exact fun _ _ _ => trivial
  | getfile | getdir =>
    intro s
    dsimp only
    split
    · trivial
    · intro r
      cases r <;> trivial
  | setattr ino newSize =>
    intro s
    dsimp only
    split
    · trivial
    · intro r
      cases r with
      | error => trivial
      | ok buf =>
        intro r
        cases r with
        | error => trivial
        | ok a =>
          dsimp only
          split
          · exact fun _ => trivial
          · trivial
  | read | write =>
    intro s
    dsimp only
    split
    · trivial
    · intro r
      cases r with
      | error => trivial
      | ok buf => first | trivial | exact fun _ => trivial

theorem op_opens (hop : op.directory = some d) :
    ∃ h : Dir → Prog, (∀ x, (h x).Calm) ∧ op.prog = YfsClient.openDir d h := by
  cases op with
  | create | mkdir =>
    cases hop
    refine ⟨_, fun x => ?_, rfl⟩
    split
    · trivial
    · intro i r
      cases r with
      | error => trivial
      | ok =>
        intro r
        cases r with
        | error => first | trivial | exact fun _ => trivial
        | ok =>
          first
          | trivial
          | intro r
            cases r with
            | error => exact fun _ => trivial
            | ok => trivial
  | unlink =>
    cases hop
    refine ⟨_, fun x => ?_, rfl⟩
    split
    · trivial
    · split
      · intro s
        dsimp only
        split
        · trivial
        · intro r
          cases r with
          | error => trivial
          | ok => exact fun _ => trivial
      · trivial
  | lookup =>
    cases hop
    refine ⟨_, fun x => ?_, rfl⟩
    split <;> trivial
  | getdirContents =>
    cases hop
    refine ⟨_, fun x => ?_, rfl⟩
    trivial
  | _ => cases hop

/-- Where an operation on a directory can be after its first two calls. -/
theorem openDir_run (hh : ∀ x, (h x).Calm)
    (hrun : TraceSystem.run Prog.step (YfsClient.openDir d h) as = some q)
    (hend : q.ended = true) :
    q.Calm ∧ (∀ s buf suf, as = .acquire d s :: .get d (.ok buf) :: suf → parseDir buf ≠ none) ∨
    ∃ s buf, as = [.acquire d s, .get d (.ok buf)] ∧ s ≠ .disconnected ∧ parseDir buf = none ∧
      q = .throw := by
  rcases as with _ | ⟨a,as⟩
  · cases hrun
    cases hend
  obtain ⟨p1,h1,hrun⟩ := Option.bind_eq_some_iff.mp hrun
  cases step_steps h1 with
  | acquire s =>
    dsimp only at hrun
    by_cases hs : s = .disconnected
    · rw [if_pos hs] at hrun
      obtain ⟨rfl,rfl⟩ := ended_run rfl hrun
      exact Or.inl ⟨trivial, by simp⟩
    · rw [if_neg hs] at hrun
      rcases as with _ | ⟨a,as⟩
      · cases hrun
        cases hend
      obtain ⟨p2,h2,hrun⟩ := Option.bind_eq_some_iff.mp hrun
      cases step_steps h2 with
      | get r =>
        cases r with
        | error e =>
          refine Or.inl ⟨calm_trace (p := .release d (.ret _)) trivial hrun, ?_⟩
          simp
        | ok buf =>
          dsimp only [Prog.parse] at hrun
          rcases hb : parseDir buf with _ | x
          · rw [hb] at hrun
            obtain ⟨rfl,rfl⟩ := ended_run rfl hrun
            exact Or.inr ⟨s, buf, rfl, hs, hb, rfl⟩
          · rw [hb] at hrun
            refine Or.inl ⟨calm_trace (hh x) hrun, ?_⟩
            intro s' buf' suf hsuf
            simp only [List.cons.injEq, Act.get.injEq, Except.ok.injEq, true_and] at hsuf
            rw [← hsuf.2.1, hb]
            simp

/-- An exception ends an operation that holds its directory's lock. -/
theorem throw_unbalanced {s : Status} {buf : Str} (hs : s ≠ .disconnected)
    (hpos : Act.possible (.acquire d s) = true) :
    ¬ Balanced [.acquire d s, .get d (.ok buf)] q := by
  intro hb
  have hok : s = .ok := by
    cases s with
    | ok => rfl
    | retry => cases hpos
    | disconnected => exact absurd rfl hs
  subst hok
  have := hb.once d
  simp [Act.releases, Act.acquires] at this

theorem lock_balance {op : Op} {as : List Act} {p : Prog} (hop : op ≠ .mount)
    (h : Execution op as p) : Balanced as p ↔ Favourable op as := by
  obtain ⟨hrun,hpos,hend⟩ := h
  obtain ⟨held,wrote,refused,hl⟩ := ledger_run hop hpos hrun
  have hdrawn : Favourable op as → ¬ RefusedDraw as := by
    rintro hf ⟨a,b,l,hin⟩
    exact hf.drawn a b l hin
  -- where the operation stands when it has ended
  have hhere : p.Keeps held wrote refused := by
    rcases hl.here with hk | ⟨mask,k,i,rfl,-,-⟩
    · exact hk.1
    · cases hend
  have hthrow : (p.Calm ∧ ∀ d s buf suf, op.directory = some d →
      as = .acquire d s :: .get d (.ok buf) :: suf → parseDir buf ≠ none) ∨
      ∃ d s buf, op.directory = some d ∧ as = [.acquire d s, .get d (.ok buf)] ∧
        s ≠ .disconnected ∧ parseDir buf = none ∧ p = .throw := by
    rcases hd : op.directory with _ | d
    · exact Or.inl ⟨calm_trace (op_calm hd) hrun, by simp⟩
    · obtain ⟨k,hk,hop'⟩ := op_opens hd
      rw [hop'] at hrun
      rcases openDir_run hk hrun hend with ⟨hcalm,hparse⟩ | ⟨s,buf,has,hs,hb,hp⟩
      · refine Or.inl ⟨hcalm, ?_⟩
        intro d' s buf suf hd'
        cases hd'
        exact hparse s buf suf
      · exact Or.inr ⟨d, s, buf, rfl, has, hs, hb, hp⟩
  rcases hthrow with ⟨hcalm,hparsed⟩ | ⟨d,s,buf,hd,rfl,hs,hb,rfl⟩
  · -- the operation has returned
    obtain ⟨r,rfl⟩ : ∃ r, p = .ret r := by
      cases p with
      | ret r => exact ⟨r, rfl⟩
      | throw => cases hcalm
      | _ => cases hend
    obtain ⟨rfl,hr⟩ := hhere
    constructor
    · intro hb
      refine ⟨fun a b l hin => ?_, hparsed⟩
      obtain ⟨n,hn⟩ := hl.excess ⟨a, b, l, hin⟩
      have := hb.once n
      simp only [List.count_nil] at hn
      omega
    · intro hf
      refine ⟨fun n => ?_, ?_, ?_⟩
      · have := hl.exact (hdrawn hf) n
        simp only [List.count_nil] at this
        omega
      · -- a prefix of the calls has a ledger of its own
        rintro pre suf rfl n
        rw [TraceSystem.run_append] at hrun
        obtain ⟨q,hq,-⟩ := Option.bind_eq_some_iff.mp hrun
        obtain ⟨held',wrote',refused',hl'⟩ :=
          ledger_run hop (fun a ha => hpos a (List.mem_append_left _ ha)) hq
        have hpre : ¬ RefusedDraw pre := by
          rintro ⟨a,b,l,hin⟩
          exact hf.drawn a b l (hin.trans List.infix_append_left)
        have := hl'.exact hpre n
        omega
      · intro l hmem
        rcases hl.told l hmem with rfl | hrd
        · exact ⟨by rw [hr rfl], hl.clean (Or.inr rfl)⟩
        · exact absurd hrd (hdrawn hf)
  · constructor
    · intro hbal
      exact absurd hbal (throw_unbalanced hs (hpos _ (by simp)))
    · intro hf
      exact absurd hb (hf.parsed d s buf [] hd rfl)

end Throw

/-- The program has returned `DISCONNECTED`. -/
def Prog.saysDisconnected : Prog → Bool
  | .ret (.error .disconnected) => true
  | _ => false

/-- `unlink` of the file 2147483653, offline, with the directory's lock cached and the file's
not. -/
def refusedUnlink : List Act :=
  [.acquire 1 .ok, .get 1 (.ok [97, 32, 50, 49, 52, 55, 52, 56, 51, 54, 53, 51, 58]),
    .acquire 2147483653 .disconnected, .release 1]

theorem unlink_balanced : ∃ p, Execution (.unlink 1 [97]) refusedUnlink p ∧
    p.saysDisconnected = true ∧ Favourable (.unlink 1 [97]) refusedUnlink ∧
      Balanced refusedUnlink p := by
  obtain ⟨p,hrun,hp⟩ := TraceSystem.reaches_of_any Prog.step
    (fun p => p.saysDisconnected = true ∧ p.ended = true) (Op.unlink 1 [97]).prog refusedUnlink
    (by decide +kernel)
  have hex : Execution (.unlink 1 [97]) refusedUnlink p :=
    ⟨hrun, by simp [refusedUnlink, Act.possible], hp.2⟩
  have hf : Favourable (.unlink 1 [97]) refusedUnlink := by
    constructor
    · intro a b l hin
      have := hin.subset (List.mem_cons_self ..)
      simp [refusedUnlink] at this
    · intro d s buf suf hd has
      simp only [refusedUnlink, List.cons.injEq, Act.get.injEq, Except.ok.injEq] at has
      rw [← has.2.1.2]
      decide +kernel
  exact ⟨p, hex, hp.1, hf, (lock_balance (by simp) hex).mpr hf⟩

/-- `create` in the root directory, offline, with the root's lock cached: the lock of the new
number is refused, and released all the same. -/
def refusedCreate : List Act :=
  [.acquire 1 .ok, .get 1 (.ok [116, 109, 112, 32, 50, 58]), .draw 0 5,
    .acquire 2147483653 .disconnected, .get 2147483653 (.error .noent),
    .put 2147483653 [] (.ok ()), .rename 2147483653 [97] (.ok ()),
    .put 1 [97, 32, 50, 49, 52, 55, 52, 56, 51, 54, 53, 51, 58, 116, 109, 112, 32, 50, 58] (.ok ()),
    .release 2147483653, .release 1]

theorem create_unbalanced : ∃ p, Execution (.create 1 [97]) refusedCreate p ∧
    ¬ Balanced refusedCreate p := by
  obtain ⟨p,hrun,hp⟩ := TraceSystem.reaches_of_any Prog.step (fun p => p.ended = true)
    (Op.create 1 [97]).prog refusedCreate (by decide +kernel)
  refine ⟨p, ⟨hrun, by simp [refusedCreate, Act.possible], hp⟩, ?_⟩
  intro hb
  have := hb.once 2147483653
  revert this
  decide +kernel

end DisconnectedYfs.YFS
