import DisconnectedYfs.YFSHandlers
import DisconnectedYfs.YFSLockBalance

/-! How often the handlers of `fuse.cc` answer a request, and what they have changed when the
answer is an error. -/
namespace DisconnectedYfs.YFS
open Std

/-- What the extent cache answers to a call that changes it: `put` and `remove` return `OK` or not
at all, and `rename` is only called on an extent that was put before. -/
def Act.answered : Act → Bool
  | .put _ _ (.error _) | .rename _ _ (.error _) | .remove _ (.error _) => false
  | _ => true

/-- An operation from its first call to its end, as the lock client and the extent cache may
answer. -/
structure Called (op : Op) (as : List Act) (p : Prog) : Prop extends Execution op as p where
  answered : ∀ a ∈ as, a.answered = true

/-- Some call changes an extent. -/
def changed (as : List Act) : Bool := as.any Act.writes

/-- Whether something was changed (`wrote`) and what the operation returns agree with `post`. -/
def Prog.Ends (post : Bool → Except YErr Out → Prop) : Bool → Prog → Prop
  | wrote, .ret r => post wrote r
  | _, .throw => True
  | wrote, .acquire _ k => ∀ s, Ends post wrote (k s)
  | wrote, .release _ k => Ends post wrote k
  | wrote, .get _ k => ∀ r, Ends post wrote (k r)
  | wrote, .getattr _ k => ∀ r, Ends post wrote (k r)
  | _, .put _ _ k | _, .rename _ _ k | _, .remove _ k => Ends post true (k (.ok ()))
  | wrote, .alloc _ k => ∀ i, Ends post wrote (k i)

/-- An operation that fails has changed nothing; most that may change something have done so when
they succeed. -/
def Op.Post : Op → Bool → Except YErr Out → Prop
  | .getfile _, wrote, _ | .getdir _, wrote, _ | .lookup _ _, wrote, _
  | .getdirContents _, wrote, _ | .read _ _ _, wrote, _ => wrote = false
  | .create _ _, wrote, r | .mkdir _ _, wrote, r | .unlink _ _, wrote, r
  | .write _ _ _ _, wrote, r => wrote = r.toBool
  | .setattr _ _, wrote, r => wrote = true → r.toBool = true
  | .mount, _, r => r.toBool = true

section Ends
variable {post : Bool → Except YErr Out → Prop} {wrote : Bool} {p p' : Prog} {a : Act}
  {as : List Act} {op : Op}

theorem ends_tryInum {mask : ℕ} {k : ℕ → Prog} (h : ∀ i, (k i).Ends post wrote) (i : ℕ) :
    (Prog.tryInum mask k i).Ends post wrote := by
  intro s r
  dsimp only
  split
  · exact h i
  · exact h

theorem ends_step (h : p.Ends post wrote) (ha : a.answered = true) (hs : p.step a = some p') :
    p'.Ends post (wrote || a.writes) := by
  cases step_steps hs with
  | acquire s => exact (Bool.or_false wrote).symm ▸ h s
  | release => exact (Bool.or_false wrote).symm ▸ h
  | get r => exact (Bool.or_false wrote).symm ▸ h r
  | getattr r => exact (Bool.or_false wrote).symm ▸ h r
  | put r | rename r | remove r =>
    cases r with
    | error e => cases ha
    | ok u => exact (Bool.or_true wrote).symm ▸ h
  | draw x y => exact (Bool.or_false wrote).symm ▸ ends_tryInum h _

theorem ends_run (h : p.Ends post wrote) (ha : ∀ a ∈ as, a.answered = true)
    (hrun : TraceSystem.run Prog.step p as = some p') : p'.Ends post (wrote || changed as) := by
  induction as generalizing p wrote with
  | nil =>
    cases hrun
    exact (Bool.or_false wrote).symm ▸ h
  | cons a as ih =>
    obtain ⟨q,hq,hrest⟩ := Option.bind_eq_some_iff.mp hrun
    have hstep := ends_step h (ha a List.mem_cons_self) hq
    have hend := ih hstep (fun b hb => ha b (List.mem_cons_of_mem a hb)) hrest
    rw [Bool.or_assoc] at hend
    exact hend

theorem ends_lock {l : ℕ} {k : Prog} (h : k.Ends post false)
    (hpost : ∀ e, post false (.error e)) : (Prog.lock l k).Ends post false := by
  intro s
  dsimp only
  split_ifs
  · exact hpost _
  · exact h

theorem ends_fetch {l : ℕ} {k : Str → Prog} (h : ∀ buf, (k buf).Ends post false)
    (hpost : ∀ e, post false (.error e)) : (Prog.fetch l k).Ends post false := by
  intro r
  cases r with
  | error e => exact hpost _
  | ok buf => exact h buf

theorem ends_openDir {l : ℕ} {k : Dir → Prog} (h : ∀ d, (k d).Ends post false)
    (hpost : ∀ e, post false (.error e)) : (YfsClient.openDir l k).Ends post false := by
  refine ends_lock (ends_fetch (fun buf => ?_) hpost) hpost
  unfold Prog.parse
  split
  · trivial
  · exact h _

theorem ends_op (op : Op) : op.prog.Ends op.Post false := by
  cases op with
  | mount =>
    intro s r
    dsimp only
    split
    · exact fun _ => rfl
    · exact rfl
  | getfile ino =>
    refine ends_lock (fun r => ?_) (fun _ => rfl)
    cases r <;> exact rfl
  | getdir ino => exact ends_lock (fun _ => rfl) (fun _ => rfl)
  | create p name =>
    refine ends_openDir (fun d => ?_) (fun _ => rfl)
    split_ifs
    · exact rfl
    · exact fun _ => rfl
  | mkdir p name =>
    refine ends_openDir (fun d => ?_) (fun _ => rfl)
    split_ifs
    · exact rfl
    · exact fun _ => rfl
  | unlink p name =>
    refine ends_openDir (fun d => ?_) (fun _ => rfl)
    split
    · exact rfl
    · split_ifs
      · intro s
        dsimp only
        split_ifs
        · exact rfl
        · exact rfl
      · exact rfl
  | lookup p name =>
    refine ends_openDir (fun d => ?_) (fun _ => rfl)
    split <;> exact rfl
  | getdirContents ino => exact ends_openDir (fun _ => rfl) (fun _ => rfl)
  | setattr ino n =>
    have hfail : ∀ e, Op.Post (.setattr ino n) false (.error e) := fun _ h => by cases h
    refine ends_lock (ends_fetch (fun buf r => ?_) hfail) hfail
    cases r with
    | error e => exact hfail _
    | ok a =>
      dsimp only
      split
      · exact fun _ => rfl
      · exact fun _ => rfl
  | read ino off size => exact ends_lock (ends_fetch (fun _ => rfl) (fun _ => rfl)) (fun _ => rfl)
  | write ino buf off size =>
    exact ends_lock (ends_fetch (fun _ => rfl) (fun _ => rfl)) (fun _ => rfl)

theorem called_post {r : Except YErr Out} (h : Called op as (.ret r)) :
    op.Post (changed as) r := by
  have hend := ends_run (ends_op op) h.answered h.run
  rw [Bool.false_or] at hend
  exact hend

/-- Only the parsing of a directory throws. -/
theorem called_returns (hop : op.directory = none) : ¬ Called op as .throw := by
  intro h
  exact calm_trace (op_calm hop) h.run

end Ends

namespace Fuse

/-- A handler with the answers that it sends, the results of the operations that it calls (`none`
for an exception, which ends it) and the calls that these make. -/
inductive Handler.Runs :
    Handler → List Answer → List (Option (Except YErr Out)) → List Act → Prop
  | done : Runs .done [] [] []
  | reply {a k answers rs as} (h : Runs k answers rs as) : Runs (.reply a k) (a :: answers) rs as
  | call {op k answers rs as as' r} (hc : Called op as (.ret r)) (h : Runs (k r) answers rs as') :
      Runs (.call op k) answers (some r :: rs) (as ++ as')
  | threw {op k as} (hc : Called op as .throw) : Runs (.call op k) [] [none] as

/-- There is one answer, and if it is an error no extent was changed. -/
def Proper (answers : List Answer) (as : List Act) : Prop :=
  ∃ a, answers = [a] ∧ ∀ e, a = .err e → changed as = false

/-- The first operation succeeded and the `getattr` after it failed. -/
def FollowUpFails (rs : List (Option (Except YErr Out))) : Prop :=
  ∃ o e, rs = [some (.ok o), some (.error e)]

/-- No operation throws; none that has changed something is followed by a `getattr` that fails; and
what is read or written is a file, with success. -/
def Req.Meets (q : Req) (rs : List (Option (Except YErr Out))) : Prop :=
  none ∉ rs ∧
  match q with
  | .setattr _ _ _ | .create _ _ | .mknod _ _ | .mkdir _ _ => ¬ FollowUpFails rs
  | .read ino _ _ | .write ino _ _ _ => isfile ino = true ∧ ∃ o, rs = [some (.ok o)]
  | .getattr _ | .lookup _ _ | .readdir _ _ _ _ | .openFile | .unlink _ _ | .statfs => True

section
variable {a b : Answer} {op : Op} {answers : List Answer} {rs : List (Option (Except YErr Out))}
  {as : List Act} {g : Except YErr Out → Handler} {i : ℕ}

theorem runs_last (h : (Handler.last a).Runs answers rs as) :
    answers = [a] ∧ rs = [] ∧ changed as = false := by
  cases h with
  | reply h =>
    cases h
    exact ⟨rfl, rfl, rfl⟩

theorem runs_two (h : (Handler.reply a (.last b)).Runs answers rs as) :
    answers = [a, b] ∧ rs = [] := by
  cases h with
  | reply h =>
    obtain ⟨rfl,rfl,-⟩ := runs_last h
    exact ⟨rfl, rfl⟩

theorem runs_call (h : (Handler.call op g).Runs answers rs as) :
    (∃ r rs' as₁ as₂, op.Post (changed as₁) r ∧ (g r).Runs answers rs' as₂ ∧ rs = some r :: rs' ∧
      changed as = (changed as₁ || changed as₂)) ∨
    (op.directory ≠ none ∧ answers = [] ∧ rs = [none]) := by
  cases h with
  | @call _ _ _ rs' as₁ as₂ r hc h =>
    exact Or.inl ⟨r, rs', as₁, as₂, called_post hc, h, rfl, List.any_append⟩
  | threw hc => exact Or.inr ⟨fun hop => called_returns hop hc, rfl, rfl⟩

/-- `getattr` changes nothing. -/
theorem runs_getattr {k : Except YErr ℕ → Handler} (h : (getattr i k).Runs answers rs as) :
    ∃ rs' as', changed as = changed as' ∧
      ((∃ o size, rs = some (.ok o) :: rs' ∧ (k (.ok size)).Runs answers rs' as') ∨
        ∃ e, rs = some (.error e) :: rs' ∧ (k (.error e)).Runs answers rs' as') := by
  rcases runs_call h with ⟨r,rs',as₁,as₂,hpost,hk,hrs,has⟩ | ⟨hop,-,-⟩
  · have hsilent : changed as₁ = false := by
      by_cases hf : isfile i = true
      · rw [if_pos hf] at hpost
        exact hpost
      · rw [if_neg hf] at hpost
        exact hpost
    rw [hsilent, Bool.false_or] at has
    refine ⟨rs', as₂, has, ?_⟩
    cases r with
    | error e => exact Or.inr ⟨e, hrs, hk⟩
    | ok o =>
      cases o with
      | file fin => exact Or.inl ⟨_, _, hrs, hk⟩
      | _ => exact Or.inl ⟨_, _, hrs, hk⟩
  · by_cases hf : isfile i = true
    · rw [if_pos hf] at hop
      exact absurd rfl hop
    · rw [if_neg hf] at hop
      exact absurd rfl hop

theorem not_proper_two (h : answers = [a, b]) : ¬ Proper answers as := by
  rintro ⟨c,hc,-⟩
  rw [h] at hc
  cases hc

theorem not_proper_nil (h : answers = []) : ¬ Proper answers as := by
  rintro ⟨c,hc,-⟩
  rw [h] at hc
  cases hc

theorem proper_unchanged (h : answers = [a]) (hs : changed as = false) : Proper answers as :=
  ⟨a, h, fun _ _ => hs⟩

/-- The exception is neither answered nor among the results that are met. -/
theorem threw_iff {q : Req} (hans : answers = []) (hrs : rs = [none]) :
    Proper answers as ↔ q.Meets rs := by
  refine iff_of_false (not_proper_nil hans) ?_
  rintro ⟨h,-⟩
  rw [hrs] at h
  exact h List.mem_cons_self

/-- Handlers that make something and ask for its attributes. -/
theorem making_iff (hpost : ∀ wrote r, op.Post wrote r → wrote = r.toBool)
    (herr : ∀ e, ∃ n, g (.error e) = .last (.err n))
    (hok : ∀ o, ∃ k, g (.ok o) = getattr (Out.number o) k ∧
      (∀ size, ∃ a, k (.ok size) = .last a ∧ ∀ n, a ≠ .err n) ∧
      ∀ e, ∃ n, k (.error e) = .last (.err n))
    (h : (Handler.call op g).Runs answers rs as) :
    Proper answers as ↔ none ∉ rs ∧ ¬ FollowUpFails rs := by
  rcases runs_call h with ⟨r,rs',as₁,as₂,hp,hg,rfl,has⟩ | ⟨-,rfl,rfl⟩
  · have hwrote := hpost _ _ hp
    cases r with
    | error e =>
      obtain ⟨n,hn⟩ := herr e
      rw [hn] at hg
      obtain ⟨hans,rfl,hs⟩ := runs_last hg
      refine iff_of_true (proper_unchanged hans ?_) ⟨by simp, by simp [FollowUpFails]⟩
      rw [has, hwrote, hs]
      rfl
    | ok o =>
      obtain ⟨k,hk,hdone,hfail⟩ := hok o
      rw [hk] at hg
      obtain ⟨rs'',as',hs,⟨o',size,rfl,hrun⟩ | ⟨e,rfl,hrun⟩⟩ := runs_getattr hg
      · obtain ⟨a,ha,hne⟩ := hdone size
        rw [ha] at hrun
        obtain ⟨hans,rfl,-⟩ := runs_last hrun
        refine iff_of_true ⟨a, hans, fun n hn => absurd hn (hne n)⟩
          ⟨by simp, by simp [FollowUpFails]⟩
      · -- it is made, and the request is answered with an error
        obtain ⟨n,hn⟩ := hfail e
        rw [hn] at hrun
        obtain ⟨hans,rfl,-⟩ := runs_last hrun
        refine iff_of_false ?_ (fun hm => hm.2 ⟨o, e, rfl⟩)
        rintro ⟨a,ha,hsilent⟩
        rw [hans] at ha
        cases ha
        have := hsilent n rfl
        rw [has, hwrote] at this
        cases this
  · exact iff_of_false (not_proper_nil rfl) (fun hm => hm.1 List.mem_cons_self)

theorem createRefusal_err (e : YErr) : ∃ n, createRefusal e = .err n := by
  cases e <;> exact ⟨_, rfl⟩

theorem createhelper_iff {k : Except YErr (ℕ × ℕ) → Handler} {parent : ℕ} {name : Str}
    (hok : ∀ e, ∃ a, k (.ok e) = .last a ∧ ∀ n, a ≠ .err n)
    (herr : ∀ e, k (.error e) = .last (createRefusal e))
    (h : (fuseserverCreatehelper parent name k).Runs answers rs as) :
    Proper answers as ↔ none ∉ rs ∧ ¬ FollowUpFails rs := by
  have hfail : ∀ e, ∃ n, k (.error e) = .last (.err n) := by
    intro e
    obtain ⟨n,hn⟩ := createRefusal_err e
    exact ⟨n, by rw [herr, hn]⟩
  have hpost : ∀ wrote r, (Op.create parent name).Post wrote r → wrote = r.toBool :=
    fun _ _ hp => hp
  refine making_iff hpost hfail (fun o => ?_) h
  exact ⟨_, rfl, fun size => hok _, hfail⟩

theorem mkdir_iff {parent : ℕ} {name : Str}
    (h : (fuseserverMkdir parent name).Runs answers rs as) :
    Proper answers as ↔ none ∉ rs ∧ ¬ FollowUpFails rs := by
  have hpost : ∀ wrote r, (Op.mkdir parent name).Post wrote r → wrote = r.toBool :=
    fun _ _ hp => hp
  refine making_iff hpost (fun e => ?_) (fun o => ?_) h
  · cases e <;> exact ⟨_, rfl⟩
  · exact ⟨_, rfl, fun size => ⟨_, rfl, by simp⟩, fun e => ⟨_, rfl⟩⟩

theorem setattr_iff {ino stSize : ℕ} {setSize : Bool}
    (h : (fuseserverSetattr ino stSize setSize).Runs answers rs as) :
    Proper answers as ↔ none ∉ rs ∧ ¬ FollowUpFails rs := by
  unfold fuseserverSetattr at h
  split_ifs at h
  · obtain ⟨hans,rfl,hs⟩ := runs_last h
    exact iff_of_true (proper_unchanged hans hs) ⟨by simp, by simp [FollowUpFails]⟩
  · obtain ⟨hans,rfl,hs⟩ := runs_last h
    exact iff_of_true (proper_unchanged hans hs) ⟨by simp, by simp [FollowUpFails]⟩
  · rcases runs_call h with ⟨r,rs',as₁,as₂,hp,hg,rfl,has⟩ | ⟨hop,-,-⟩
    · cases r with
      | error e =>
        obtain ⟨hans,rfl,hs⟩ := runs_last hg
        have hsilent : changed as₁ = false := Bool.eq_false_iff.mpr (fun hc => by cases hp hc)
        refine iff_of_true (proper_unchanged hans ?_) ⟨by simp, by simp [FollowUpFails]⟩
        rw [has, hsilent, hs]
        rfl
      | ok o =>
        obtain ⟨rs'',as',-,⟨o',size,rfl,hrun⟩ | ⟨e,rfl,hrun⟩⟩ := runs_getattr hg
        · obtain ⟨hans,rfl,-⟩ := runs_last hrun
          refine iff_of_true ⟨_, hans, fun n hn => by cases hn⟩ ⟨by simp, by simp [FollowUpFails]⟩
        · obtain ⟨hans,rfl⟩ := runs_two hrun
          exact iff_of_false (not_proper_two hans) (fun hm => hm.2 ⟨o, e, rfl⟩)
    · exact absurd rfl hop

/-- `read` and `write`: an error is one answer too many. -/
theorem transfer_iff {ino : ℕ} (hop : op.directory = none)
    (hok : ∀ o, ∃ a, g (.ok o) = .last a ∧ ∀ n, a ≠ .err n)
    (herr : ∀ e, ∃ a b, g (.error e) = .reply a (.last b))
    (h : (refuseDir ino (.call op g)).Runs answers rs as) :
    Proper answers as ↔ none ∉ rs ∧ isfile ino = true ∧ ∃ o, rs = [some (.ok o)] := by
  have hcall : ∀ {answers}, (Handler.call op g).Runs answers rs as →
      (∃ o a, rs = [some (.ok o)] ∧ answers = [a] ∧ ∀ n, a ≠ .err n) ∨
      ∃ e a b, rs = [some (.error e)] ∧ answers = [a, b] := by
    intro answers h
    rcases runs_call h with ⟨r,rs',as₁,as₂,-,hg,rfl,-⟩ | ⟨hne,-,-⟩
    · cases r with
      | error e =>
        obtain ⟨a,b,hab⟩ := herr e
        rw [hab] at hg
        obtain ⟨hans,rfl⟩ := runs_two hg
        exact Or.inr ⟨e, a, b, rfl, hans⟩
      | ok o =>
        obtain ⟨a,ha,hne⟩ := hok o
        rw [ha] at hg
        obtain ⟨hans,rfl,-⟩ := runs_last hg
        exact Or.inl ⟨o, a, rfl, hans, hne⟩
    · exact absurd hop hne
  unfold refuseDir at h
  split_ifs at h with hf
  · -- the answer to a directory is followed by at least one more
    refine iff_of_false ?_ (fun hm => by rw [hf] at hm; cases hm.2.1)
    cases h with
    | reply h =>
      rintro ⟨c,hc,-⟩
      rcases hcall h with ⟨o,a,-,rfl,-⟩ | ⟨e,a,b,-,rfl⟩ <;> cases hc
  · have hfile : isfile ino = true := by simpa using hf
    rcases hcall h with ⟨o,a,rfl,hans,hne⟩ | ⟨e,a,b,rfl,hans⟩
    · exact iff_of_true ⟨a, hans, fun n hn => absurd hn (hne n)⟩ ⟨by simp, hfile, o, rfl⟩
    · refine iff_of_false (not_proper_two hans) ?_
      rintro ⟨-,-,o,ho⟩
      cases ho

/-- A request is answered once, and an error leaves every extent alone, exactly if these conditions
are met. -/
theorem one_reply_iff {q : Req} (h : q.handler.Runs answers rs as) :
    Proper answers as ↔ q.Meets rs := by
  cases q with
  | getattr ino =>
    simp only [Req.handler, fuseserverGetattr] at h
    obtain ⟨rs',as',hs,hrun⟩ := runs_getattr h
    rcases hrun with ⟨o,size,rfl,hrun⟩ | ⟨e,rfl,hrun⟩
    · obtain ⟨hans,rfl,hs'⟩ := runs_last hrun
      exact iff_of_true (proper_unchanged hans (hs.trans hs')) ⟨by simp, trivial⟩
    · obtain ⟨hans,rfl,hs'⟩ := runs_last hrun
      exact iff_of_true (proper_unchanged hans (hs.trans hs')) ⟨by simp, trivial⟩
  | setattr ino stSize setSize => exact setattr_iff h
  | read ino size off =>
    refine transfer_iff rfl (fun o => ?_) (fun e => ⟨_, _, rfl⟩) h
    cases o <;> exact ⟨_, rfl, by simp⟩
  | write ino buf size off =>
    exact transfer_iff rfl (fun o => ⟨_, rfl, by simp⟩) (fun e => ⟨_, _, rfl⟩) h
  | create parent name =>
    simp only [Req.handler, fuseserverCreate] at h
    refine createhelper_iff ?_ ?_ h
    · exact fun e => ⟨_, rfl, by simp⟩
    · exact fun e => rfl
  | mknod parent name =>
    simp only [Req.handler, fuseserverMknod] at h
    refine createhelper_iff ?_ ?_ h
    · exact fun e => ⟨_, rfl, by simp⟩
    · exact fun e => rfl
  | lookup parent name =>
    rcases runs_call h with ⟨r,rs',as₁,as₂,hp,hg,rfl,has⟩ | ⟨-,hans,hrs⟩
    · have hfirst : changed as₁ = false := hp
      rw [hfirst, Bool.false_or] at has
      cases r with
      | error e =>
        obtain ⟨hans,rfl,hs⟩ := runs_last hg
        exact iff_of_true (proper_unchanged hans (has.trans hs)) ⟨by simp, trivial⟩
      | ok o =>
        obtain ⟨rs'',as',hs,hrun⟩ := runs_getattr hg
        rcases hrun with ⟨o',size,rfl,hrun⟩ | ⟨e,rfl,hrun⟩
        · obtain ⟨hans,rfl,hs'⟩ := runs_last hrun
          exact iff_of_true (proper_unchanged hans ((has.trans hs).trans hs')) ⟨by simp, trivial⟩
        · obtain ⟨hans,rfl,hs'⟩ := runs_last hrun
          exact iff_of_true (proper_unchanged hans ((has.trans hs).trans hs')) ⟨by simp, trivial⟩
    · exact threw_iff hans hrs
  | readdir pack ino size off =>
    change (fuseserverReaddir pack ino size off).Runs answers rs as at h
    unfold fuseserverReaddir at h
    split_ifs at h
    · obtain ⟨hans,rfl,hs⟩ := runs_last h
      exact iff_of_true (proper_unchanged hans hs) ⟨by simp, trivial⟩
    · rcases runs_call h with ⟨r,rs',as₁,as₂,hp,hg,rfl,has⟩ | ⟨-,hans,hrs⟩
      · have hfirst : changed as₁ = false := hp
        rw [hfirst, Bool.false_or] at has
        have hlast : ∃ a, (Handler.last a).Runs answers rs' as₂ := by
          split at hg <;> exact ⟨_, hg⟩
        obtain ⟨a,ha⟩ := hlast
        obtain ⟨hans,rfl,hs⟩ := runs_last ha
        exact iff_of_true (proper_unchanged hans (has.trans hs)) ⟨by simp, trivial⟩
      · exact threw_iff hans hrs
  | openFile =>
    obtain ⟨hans,rfl,hs⟩ := runs_last h
    exact iff_of_true (proper_unchanged hans hs) ⟨by simp, trivial⟩
  | mkdir parent name => exact mkdir_iff h
  | unlink parent name =>
    rcases runs_call h with ⟨r,rs',as₁,as₂,hp,hg,rfl,has⟩ | ⟨-,hans,hrs⟩
    · have hwrote : changed as₁ = r.toBool := hp
      rw [hwrote] at has
      cases r with
      | error e =>
        have hlast : ∃ a, (Handler.last a).Runs answers rs' as₂ := by
          cases e <;> exact ⟨_, hg⟩
        obtain ⟨a,ha⟩ := hlast
        obtain ⟨hans,rfl,hs⟩ := runs_last ha
        exact iff_of_true (proper_unchanged hans (has.trans hs)) ⟨by simp, trivial⟩
      | ok o =>
        obtain ⟨hans,rfl,-⟩ := runs_last hg
        exact iff_of_true ⟨_, hans, fun n hn => by cases hn⟩ ⟨by simp, trivial⟩
    · exact threw_iff hans hrs
  | statfs =>
    obtain ⟨hans,rfl,hs⟩ := runs_last h
    exact iff_of_true (proper_unchanged hans hs) ⟨by simp, trivial⟩

end

/-- The calls of a read that finds one byte. -/
def readActs : List Act :=
  [.acquire 0x80000005 .ok, .get 0x80000005 (.ok [65]), .release 0x80000005]

theorem read_called : Called (.read 0x80000005 0 1) readActs (.ret (.ok (.data [65]))) :=
  ⟨⟨rfl, by decide, rfl⟩, by decide⟩

theorem one_reply_read :
    (Req.read 0x80000005 1 0).handler.Runs [.buf [65]] [some (.ok (.data [65]))] readActs ∧
    Proper [.buf [65]] readActs := by
  have hrun : (Req.read 0x80000005 1 0).handler.Runs [.buf [65]] [some (.ok (.data [65]))]
      readActs := .call read_called (.reply .done)
  exact ⟨hrun, (one_reply_iff hrun).mpr ⟨by simp, rfl, _, rfl⟩⟩

/-- The calls of a write of one byte to a directory. -/
def writeActs : List Act :=
  [.acquire 2 .ok, .get 2 (.ok [58]), .put 2 [120] (.ok ()), .release 2]

theorem write_called : Called (.write 2 [120] 0 1) writeActs (.ret (.ok .done)) :=
  ⟨⟨rfl, by decide, rfl⟩, by decide⟩

/-- The request is answered with `EISDIR`, the directory is overwritten, and there is a second
answer. -/
theorem directory_overwritten :
    (Req.write 2 [120] 1 0).handler.Runs [.err .eisdir, .write 1] [some (.ok .done)] writeActs ∧
    changed writeActs = true ∧ ¬ Proper [.err .eisdir, .write 1] writeActs :=
  ⟨.reply (.call write_called (.reply .done)), rfl, not_proper_two rfl⟩

end Fuse

end DisconnectedYfs.YFS
