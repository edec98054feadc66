import Mathlib.Data.Finset.Basic
import Mathlib.Order.Bounds.Basic
import Mathlib.Data.Set.Insert
import DisconnectedYfs.TraceSystem

/-! The descriptors that `SelectAIO` watches (`rpc/pollmgr.cc`), with its internal pipe and the
upper bound for `select`. A registered descriptor that is ready is always reported. -/
namespace DisconnectedYfs.RPC
open TraceSystem

/-- `FD_SETSIZE`. A set has no bit for a descriptor from there on. -/
def fdSetSize : ℕ := 1024

/-- `poll_flag`. -/
inductive PollFlag where
  | cbNone | cbRdonly | cbWronly | cbRdwr | cbMask
deriving DecidableEq, Repr

/-- `pipeWritten` counts the bytes in the pipe. -/
structure SelectAio where
  rfds : Finset ℕ
  wfds : Finset ℕ
  highfds : ℕ
  pipefd0 : ℕ
  pipefd1 : ℕ
  pipeWritten : ℕ
deriving DecidableEq

namespace SelectAio

/-- The constructor, with the descriptors that `pipe` returned. -/
def init (pipefd0 pipefd1 : ℕ) : SelectAio :=
  { rfds := {pipefd0}, wfds := ∅, highfds := pipefd0, pipefd0 := pipefd0, pipefd1 := pipefd1,
    pipeWritten := 0 }

/-- A byte that wakes `select`. -/
def kick (a : SelectAio) : SelectAio := { a with pipeWritten := a.pipeWritten+1 }

def watchFd (a : SelectAio) (fd : ℕ) (flag : PollFlag) : Option SelectAio :=
  if fd < fdSetSize then
    let a := if a.highfds ≤ fd then { a with highfds := fd } else a
    some (kick (match flag with
      | .cbRdonly => { a with rfds := insert fd a.rfds }
      | .cbWronly => { a with wfds := insert fd a.wfds }
      | _ => { a with rfds := insert fd a.rfds, wfds := insert fd a.wfds }))
  else none

def isWatched (a : SelectAio) (fd : ℕ) (flag : PollFlag) : Bool :=
  match flag with
  | .cbRdonly => fd ∈ a.rfds
  | .cbWronly => fd ∈ a.wfds
  | _ => fd ∈ a.rfds ∧ fd ∈ a.wfds

/-- The loop of `unwatch_fd` that looks for the new upper bound. -/
def rescan (a : SelectAio) : ℕ :=
  (List.range (a.highfds+1)).foldl
    (fun newh i => if i ∈ a.rfds then i else if i ∈ a.wfds then i else newh) a.pipefd0

/-- The bits that `unwatch_fd` clears; other flags fail its `VERIFY`. -/
def clear (a : SelectAio) (fd : ℕ) : PollFlag → Option SelectAio
  | .cbRdonly => some { a with rfds := a.rfds.erase fd }
  | .cbWronly => some { a with wfds := a.wfds.erase fd }
  | .cbRdwr => some { a with wfds := a.wfds.erase fd, rfds := a.rfds.erase fd }
  | _ => none

/-- The upper bound is looked for again when it is a descriptor that is no longer watched. -/
def lower (a : SelectAio) (fd : ℕ) : SelectAio :=
  if fd ∉ a.rfds ∧ fd ∉ a.wfds then
    if fd = a.highfds then { a with highfds := rescan a } else a
  else a

def unwatchFd (a : SelectAio) (fd : ℕ) (flag : PollFlag) : Option (Bool × SelectAio) :=
  if fd < fdSetSize then
    (clear a fd flag).map fun a =>
      let a := if flag = .cbRdwr then kick (lower a fd) else lower a fd
      (decide (fd ∉ a.rfds ∧ fd ∉ a.wfds), a)
  else none

/-- What `select` leaves of a set: of its first `n` descriptors the ready ones. -/
def select (n : ℕ) (ready : ℕ → Bool) (fds : Finset ℕ) : Finset ℕ :=
  fds.filter fun fd => fd < n ∧ ready fd

/-- What the scan of `wait_ready` has: the descriptors it appends to `readable` and `writable`, and
whether it has read from the pipe. -/
structure Scanned where
  readable : List ℕ := []
  writable : List ℕ := []
  piped : Bool := false
deriving DecidableEq, Repr

def look (pipefd0 : ℕ) (trfds twfds : Finset ℕ) (acc : Scanned) (fd : ℕ) : Scanned :=
  if fd = pipefd0 ∧ fd ∈ trfds then { acc with piped := true }
  else
    { acc with
      writable := if fd ∈ twfds then acc.writable ++ [fd] else acc.writable,
      readable := if fd ∈ trfds then acc.readable ++ [fd] else acc.readable }

def scan (pipefd0 high : ℕ) (trfds twfds : Finset ℕ) : Scanned :=
  (List.range (high+1)).foldl (look pipefd0 trfds twfds) {}

/-- The descriptors that are ready for reading: the pipe is when it holds a byte. -/
def readReady (a : SelectAio) (ready : ℕ → Bool) (fd : ℕ) : Bool :=
  if fd = a.pipefd0 then 0 < a.pipeWritten else ready fd

/-- `wait_ready` from the return of `select` on, for the copies it has made: these descriptors are
ready for reading and for writing. `none` is an interrupted `select`. -/
def finishWait (a : SelectAio) (trfds twfds : Finset ℕ) (high : ℕ)
    (ready : Option ((ℕ → Bool) × (ℕ → Bool))) : Scanned × SelectAio :=
  match ready with
  | none => ({}, a)
  | some (rd, wr) =>
    let s := scan a.pipefd0 high (select (high+1) (a.readReady rd) trfds)
      (select (high+1) wr twfds)
    (s, if s.piped then { a with pipeWritten := a.pipeWritten-1 } else a)

def waitReady (a : SelectAio) (ready : Option ((ℕ → Bool) × (ℕ → Bool))) : Scanned × SelectAio :=
  a.finishWait a.rfds a.wfds a.highfds ready

end SelectAio

/-! What is watched, as a set of descriptors with a direction. -/

inductive Dir where
  | read | write
deriving DecidableEq, Repr

/-- The directions of a flag. -/
def PollFlag.has : PollFlag → Dir → Bool
  | .cbRdonly, .read | .cbWronly, .write | .cbRdwr, _ => true
  | _, _ => false

inductive SelectCall where
  | watch (fd : ℕ) (flag : PollFlag)
  | unwatch (fd : ℕ) (flag : PollFlag)

namespace SelectCall

def apply (w : Set (ℕ × Dir)) : SelectCall → Set (ℕ × Dir)
  | watch fd flag => w ∪ {p | p.1 = fd ∧ flag.has p.2}
  | unwatch fd flag => w \ {p | p.1 = fd ∧ flag.has p.2}

def step (a : SelectAio) : SelectCall → Option SelectAio
  | watch fd flag => a.watchFd fd flag
  | unwatch fd flag => (a.unwatchFd fd flag).map Prod.snd

def fd : SelectCall → ℕ
  | watch fd _ | unwatch fd _ => fd

def flag : SelectCall → PollFlag
  | watch _ flag | unwatch _ flag => flag

/-- The call is for a descriptor within `select`'s range, not the pipe, and with a proper flag. -/
structure Proper (pipefd0 : ℕ) (c : SelectCall) : Prop where
  fd_lt : c.fd < fdSetSize
  fd_ne : c.fd ≠ pipefd0
  flag : c.flag = .cbRdonly ∨ c.flag = .cbWronly ∨ c.flag = .cbRdwr

end SelectCall

/-- The pipe and whatever is in one of the sets. -/
def SelectAio.watched (a : SelectAio) : Set ℕ :=
  {fd | fd = a.pipefd0 ∨ fd ∈ a.rfds ∨ fd ∈ a.wfds}

/-- The two sets are what is watched and the pipe, and the upper bound is their maximum. -/
structure Watching (w : Set (ℕ × Dir)) (a : SelectAio) : Prop where
  read : ∀ fd, fd ∈ a.rfds ↔ fd = a.pipefd0 ∨ (fd, .read) ∈ w
  write : ∀ fd, fd ∈ a.wfds ↔ (fd, .write) ∈ w
  pipe : ∀ d, (a.pipefd0, d) ∉ w
  high : IsGreatest a.watched a.highfds

section
variable {a a' : SelectAio} {w : Set (ℕ × Dir)} {fd : ℕ} {flag : PollFlag} {b : Bool}

/-- The last number below `n` with `p` that a loop saw. -/
theorem foldl_last (p : ℕ → Prop) [DecidablePred p] (d n : ℕ) (h : ∃ i < n, p i) :
    IsGreatest {i | i < n ∧ p i}
      ((List.range n).foldl (fun acc i => if p i then i else acc) d) := by
  induction n with
  | zero =>
    obtain ⟨i,hi,-⟩ := h
    omega
  | succ n ih =>
    rw [List.range_succ, List.foldl_append, List.foldl_cons, List.foldl_nil]
    by_cases hn : p n
    · rw [if_pos hn]
      exact ⟨⟨Nat.lt_succ_self n, hn⟩, fun i hi => Nat.lt_succ_iff.mp hi.1⟩
    · rw [if_neg hn]
      have hlt : ∀ i, i < n+1 → p i → i < n := by
        intro i hi hp
        exact lt_of_le_of_ne (Nat.lt_succ_iff.mp hi) (fun heq => hn (heq ▸ hp))
      obtain ⟨i,hi,hp⟩ := h
      obtain ⟨⟨hr,hpr⟩,hub⟩ := ih ⟨i, hlt i hi hp, hp⟩
      exact ⟨⟨Nat.lt_succ_of_lt hr, hpr⟩, fun j hj => hub ⟨hlt j hj.1 hj.2, hj.2⟩⟩

/-- With the pipe in the set and nothing above the bound, the loop finds the maximum. -/
theorem rescan_isGreatest (hpipe : a.pipefd0 ∈ a.rfds)
    (hle : ∀ fd, fd ∈ a.rfds ∨ fd ∈ a.wfds → fd ≤ a.highfds) :
    IsGreatest a.watched a.rescan := by
  have hor : a.rescan = (List.range (a.highfds+1)).foldl
      (fun newh i => if i ∈ a.rfds ∨ i ∈ a.wfds then i else newh) a.pipefd0 := by
    unfold SelectAio.rescan
    congr 1
    funext newh i
    by_cases hr : i ∈ a.rfds
    · simp [hr]
    · simp [hr]
  have hset : a.watched = {fd | fd < a.highfds+1 ∧ (fd ∈ a.rfds ∨ fd ∈ a.wfds)} := by
    ext fd
    constructor
    · rintro (rfl | hfd)
      · exact ⟨Nat.lt_succ_of_le (hle _ (Or.inl hpipe)), Or.inl hpipe⟩
      · exact ⟨Nat.lt_succ_of_le (hle fd hfd), hfd⟩
    · exact fun hfd => Or.inr hfd.2
  rw [hor, hset]
  apply foldl_last
  exact ⟨a.pipefd0, Nat.lt_succ_of_le (hle _ (Or.inl hpipe)), Or.inl hpipe⟩

/-- What `watch_fd` does, for any of its flags. -/
theorem watchFd_spec (hfd : fd < fdSetSize)
    (hflag : flag = .cbRdonly ∨ flag = .cbWronly ∨ flag = .cbRdwr) :
    ∃ a', a.watchFd fd flag = some a' ∧ a'.pipefd0 = a.pipefd0 ∧
      a'.highfds = max a.highfds fd ∧
      (∀ i, i ∈ a'.rfds ↔ i ∈ a.rfds ∨ i = fd ∧ flag.has .read) ∧
      (∀ i, i ∈ a'.wfds ↔ i ∈ a.wfds ∨ i = fd ∧ flag.has .write) := by
  refine ⟨_, if_pos hfd, ?_⟩
  have hmax : max a.highfds fd = if a.highfds ≤ fd then fd else a.highfds := max_def _ _
  rw [hmax]
  split_ifs with hle
  all_goals
    rcases hflag with rfl | rfl | rfl <;>
    simp [SelectAio.kick, PollFlag.has, or_comm]

theorem lower_eq (a : SelectAio) (fd : ℕ) : (a.lower fd).pipefd0 = a.pipefd0 ∧
    (a.lower fd).rfds = a.rfds ∧ (a.lower fd).wfds = a.wfds ∧ (a.lower fd).highfds =
      if (fd ∉ a.rfds ∧ fd ∉ a.wfds) ∧ fd = a.highfds then a.rescan else a.highfds := by
  unfold SelectAio.lower
  by_cases hout : fd ∉ a.rfds ∧ fd ∉ a.wfds
  · by_cases hhigh : fd = a.highfds
    · simp only [if_pos hout, if_pos hhigh, if_pos (And.intro hout hhigh), and_self]
    · simp only [if_pos hout, if_neg hhigh, if_neg (fun h : _ ∧ _ => hhigh h.2), and_self]
  · simp only [if_neg hout, if_neg (fun h : _ ∧ _ => hout h.1), and_self]

/-- What `unwatch_fd` does, for any of its flags: `a₁` is what it has cleared the bits of. -/
theorem unwatchFd_spec (a : SelectAio) (hfd : fd < fdSetSize)
    (hflag : flag = .cbRdonly ∨ flag = .cbWronly ∨ flag = .cbRdwr) :
    ∃ (a₁ : SelectAio) (b : Bool) (a' : SelectAio), a.unwatchFd fd flag = some (b, a') ∧
      (a₁.pipefd0 = a.pipefd0 ∧ a₁.highfds = a.highfds ∧
        (∀ i, i ∈ a₁.rfds ↔ i ∈ a.rfds ∧ ¬ (i = fd ∧ flag.has .read)) ∧
        (∀ i, i ∈ a₁.wfds ↔ i ∈ a.wfds ∧ ¬ (i = fd ∧ flag.has .write))) ∧
      a'.pipefd0 = a₁.pipefd0 ∧ a'.rfds = a₁.rfds ∧ a'.wfds = a₁.wfds ∧
      a'.highfds = (if (fd ∉ a₁.rfds ∧ fd ∉ a₁.wfds) ∧ fd = a₁.highfds then a₁.rescan
        else a₁.highfds) ∧
      (b = true ↔ fd ∉ a'.rfds ∧ fd ∉ a'.wfds) := by
  obtain ⟨a₁,ha₁⟩ : ∃ a₁, SelectAio.clear a fd flag = some a₁ := by
    rcases hflag with rfl | rfl | rfl <;> exact ⟨_, rfl⟩
  have hclear : a₁.pipefd0 = a.pipefd0 ∧ a₁.highfds = a.highfds ∧
      (∀ i, i ∈ a₁.rfds ↔ i ∈ a.rfds ∧ ¬ (i = fd ∧ flag.has .read)) ∧
      (∀ i, i ∈ a₁.wfds ↔ i ∈ a.wfds ∧ ¬ (i = fd ∧ flag.has .write)) := by
    rcases hflag with rfl | rfl | rfl <;> cases ha₁ <;>
      simp [PollFlag.has, and_comm]
  have hrun : a.unwatchFd fd flag = _ := if_pos hfd
  rw [ha₁, Option.map_some] at hrun
  refine ⟨a₁, _, _, hrun, hclear, ?_⟩
  have hlower := lower_eq a₁ fd
  by_cases hkick : flag = .cbRdwr
  · rw [if_pos hkick]
    exact ⟨hlower.1, hlower.2.1, hlower.2.2.1, hlower.2.2.2, decide_eq_true_iff⟩
  · rw [if_neg hkick]
    exact ⟨hlower.1, hlower.2.1, hlower.2.2.1, hlower.2.2.2, decide_eq_true_iff⟩

/-- When `unwatch_fd` returns, whatever its flag. -/
theorem unwatchFd_sets (h : a.unwatchFd fd flag = some (b, a')) :
    (∀ i, i ∈ a'.rfds ↔ i ∈ a.rfds ∧ ¬ (i = fd ∧ flag.has .read)) ∧
      ∀ i, i ∈ a'.wfds ↔ i ∈ a.wfds ∧ ¬ (i = fd ∧ flag.has .write) := by
  have hfd : fd < fdSetSize := by
    by_contra hfd
    have hnone : a.unwatchFd fd flag = none := if_neg hfd
    rw [hnone] at h
    cases h
  have hflag : flag = .cbRdonly ∨ flag = .cbWronly ∨ flag = .cbRdwr := by
    have hrun : a.unwatchFd fd flag = _ := if_pos hfd
    rw [hrun] at h
    cases flag with
    | cbRdonly => exact Or.inl rfl
    | cbWronly => exact Or.inr (Or.inl rfl)
    | cbRdwr => exact Or.inr (Or.inr rfl)
    | cbNone => cases h
    | cbMask => cases h
  obtain ⟨a₁,b',a'',ha,⟨-,-,hr,hw⟩,-,hr',hw',-⟩ := unwatchFd_spec a hfd hflag
  rw [h] at ha
  cases ha
  rw [hr', hw']
  exact ⟨hr, hw⟩

/-- When `watch_fd` returns, whatever its flag: another descriptor is watched as before. -/
theorem watchFd_other (h : a.watchFd fd flag = some a') {i : ℕ} (hi : i ≠ fd) :
    (i ∈ a'.rfds ↔ i ∈ a.rfds) ∧ (i ∈ a'.wfds ↔ i ∈ a.wfds) := by
  unfold SelectAio.watchFd at h
  split_ifs at h with hfd hle
  all_goals
    cases h
    cases flag <;> simp [SelectAio.kick, hi]

theorem has_some (hflag : flag = .cbRdonly ∨ flag = .cbWronly ∨ flag = .cbRdwr) :
    flag.has .read = true ∨ flag.has .write = true := by
  rcases hflag with rfl | rfl | rfl <;> simp [PollFlag.has]

theorem watching_watch (h : Watching w a) (hfd : fd < fdSetSize) (hne : fd ≠ a.pipefd0)
    (hflag : flag = .cbRdonly ∨ flag = .cbWronly ∨ flag = .cbRdwr) :
    ∃ a', a.watchFd fd flag = some a' ∧ a'.pipefd0 = a.pipefd0 ∧
      Watching ((SelectCall.watch fd flag).apply w) a' := by
  obtain ⟨a',ha',hpipe,hhigh,hread,hwrite⟩ := watchFd_spec (a := a) hfd hflag
  refine ⟨a', ha', hpipe, ?_, ?_, ?_, ?_⟩
  · intro i
    rw [hread, h.read, hpipe]
    exact or_assoc
  · intro i
    rw [hwrite, h.write]
    rfl
  · rintro d (hd | ⟨heq,-⟩)
    · exact h.pipe d (hpipe ▸ hd)
    · exact hne (heq.symm.trans hpipe)
  · have hset : a'.watched = insert fd a.watched := by
      ext i
      simp only [SelectAio.watched, Set.mem_ofPred_eq, Set.mem_insert_iff, hpipe, hread, hwrite]
      by_cases hi : i = fd
      · -- the flag asks for one of the sets at least
        rcases has_some hflag with hf | hf <;> simp [hi, hf]
      · simp [hi]
    rw [hset, hhigh, max_comm]
    exact h.high.insert fd

theorem watching_unwatch (h : Watching w a) (hfd : fd < fdSetSize) (hne : fd ≠ a.pipefd0)
    (hflag : flag = .cbRdonly ∨ flag = .cbWronly ∨ flag = .cbRdwr) :
    ∃ b a', a.unwatchFd fd flag = some (b, a') ∧ a'.pipefd0 = a.pipefd0 ∧
      Watching ((SelectCall.unwatch fd flag).apply w) a' ∧
      (b = true ↔ fd ∉ a'.rfds ∧ fd ∉ a'.wfds) := by
  obtain ⟨a₁,b,a',ha',⟨hpipe₁,hhigh₁,hread,hwrite⟩,hpipe,hr,hw,hhigh,hb⟩ :=
    unwatchFd_spec a hfd hflag
  refine ⟨b, a', ha', hpipe.trans hpipe₁, ⟨?_, ?_, ?_, ?_⟩, hb⟩
  · intro i
    rw [hr, hread, h.read, hpipe, hpipe₁]
    constructor
    · rintro ⟨hi | hi,hout⟩
      · exact Or.inl hi
      · exact Or.inr ⟨hi, hout⟩
    · rintro (hi | ⟨hi,hout⟩)
      · exact ⟨Or.inl hi, fun heq => hne (heq.1.symm.trans hi)⟩
      · exact ⟨Or.inr hi, hout⟩
  · intro i
    rw [hw, hwrite, h.write]
    rfl
  · rintro d ⟨hd,-⟩
    exact h.pipe d (hpipe₁ ▸ hpipe ▸ hd)
  · have hset : a'.watched = a₁.watched := by
      unfold SelectAio.watched
      rw [hpipe, hr, hw]
    have hsub : a₁.watched ⊆ a.watched := by
      rintro i (hi | hi | hi)
      · exact Or.inl (hi.trans hpipe₁)
      · exact Or.inr (Or.inl ((hread i).mp hi).1)
      · exact Or.inr (Or.inr ((hwrite i).mp hi).1)
    rw [hset, hhigh]
    split_ifs with hgone
    · -- the bound itself is no longer watched
      refine rescan_isGreatest ?_ (fun i hi => ?_)
      · rw [hread, h.read, hpipe₁]
        exact ⟨Or.inl rfl, fun heq => hne heq.1.symm⟩
      · rw [hhigh₁]
        exact h.high.2 (hsub (Or.inr hi))
    · rw [hhigh₁]
      refine ⟨?_, fun i hi => h.high.2 (hsub hi)⟩
      by_cases heq : a.highfds = fd
      · have hin : fd ∈ a₁.rfds ∨ fd ∈ a₁.wfds := by
          by_contra hout
          exact hgone ⟨not_or.mp hout, (hhigh₁.trans heq).symm⟩
        exact heq ▸ Or.inr hin
      · have hmem := h.high.1
        simp only [SelectAio.watched, Set.mem_ofPred_eq, hpipe₁, hread, hwrite] at hmem ⊢
        simpa [heq] using hmem

theorem mem_ite_append {l : List ℕ} {i n : ℕ} {p : Prop} [Decidable p] :
    i ∈ (if p then l ++ [n] else l) ↔ i ∈ l ∨ i = n ∧ p := by
  split_ifs with hp
  · rw [List.mem_append, List.mem_singleton, and_iff_left hp]
  · rw [or_iff_left (fun h => hp h.2)]

/-- Up to `high` the scan reports what `select` left, except for the pipe. -/
theorem scan_spec (pipefd0 high : ℕ) (trfds twfds : Finset ℕ) (i : ℕ) :
    (i ∈ (SelectAio.scan pipefd0 high trfds twfds).readable ↔
        i ≤ high ∧ i ∈ trfds ∧ i ≠ pipefd0) ∧
      (i ∈ (SelectAio.scan pipefd0 high trfds twfds).writable ↔
        i ≤ high ∧ i ∈ twfds ∧ ¬ (i = pipefd0 ∧ i ∈ trfds)) := by
  unfold SelectAio.scan
  have hlt : i ≤ high ↔ i < high+1 := Nat.lt_succ_iff.symm
  rw [hlt]
  generalize high+1 = n
  induction n with
  | zero => simp
  | succ n ih =>
    rw [List.range_succ, List.foldl_append, List.foldl_cons, List.foldl_nil]
    generalize (List.range n).foldl (SelectAio.look pipefd0 trfds twfds) {} = acc at ih
    obtain ⟨ihr,ihw⟩ := ih
    have hsucc : i < n+1 ↔ i < n ∨ i = n := Nat.lt_succ_iff_lt_or_eq
    unfold SelectAio.look
    by_cases hpipe : n = pipefd0 ∧ n ∈ trfds
    · simp only [if_pos hpipe, ihr, ihw, hsucc]
      constructor
      · grind
      · grind
    · simp only [if_neg hpipe, mem_ite_append, ihr, ihw, hsucc]
      constructor
      · grind
      · grind

theorem mem_select {n i : ℕ} {ready : ℕ → Bool} {fds : Finset ℕ} :
    i ∈ SelectAio.select n ready fds ↔ i ∈ fds ∧ i < n ∧ ready i = true := by
  unfold SelectAio.select
  rw [Finset.mem_filter]

/-- Whatever is ready, `wait_ready` reports only what is in its copies, and the sets stay. -/
theorem finishWait_spec (a : SelectAio) (trfds twfds : Finset ℕ) (high : ℕ)
    (ready : Option ((ℕ → Bool) × (ℕ → Bool))) :
    (∀ i ∈ (a.finishWait trfds twfds high ready).1.readable, i ∈ trfds) ∧
      (∀ i ∈ (a.finishWait trfds twfds high ready).1.writable, i ∈ twfds) ∧
      (a.finishWait trfds twfds high ready).2.rfds = a.rfds ∧
      (a.finishWait trfds twfds high ready).2.wfds = a.wfds := by
  cases ready with
  | none =>
    refine ⟨?_, ?_, rfl, rfl⟩
    · intro i hi
      cases hi
    · intro i hi
      cases hi
  | some ready =>
    have hspec := scan_spec a.pipefd0 high (SelectAio.select (high+1) (a.readReady ready.1) trfds)
      (SelectAio.select (high+1) ready.2 twfds)
    refine ⟨?_, ?_, ?_, ?_⟩
    · intro i hi
      exact (mem_select.mp ((hspec i).1.mp hi).2.1).1
    · intro i hi
      exact (mem_select.mp ((hspec i).2.mp hi).2.1).1
    all_goals
      unfold SelectAio.finishWait
      dsimp only
      split_ifs <;> rfl

/-- The scan reports what is watched and ready: nothing watched is above the bound. -/
theorem Watching.waitReady (h : Watching w a) (rd wr : ℕ → Bool) {i : ℕ} (hi : i ≠ a.pipefd0) :
    (i ∈ (a.waitReady (some (rd, wr))).1.readable ↔ (i, .read) ∈ w ∧ rd i = true) ∧
      (i ∈ (a.waitReady (some (rd, wr))).1.writable ↔ (i, .write) ∈ w ∧ wr i = true) := by
  have hscan : (a.waitReady (some (rd, wr))).1 = SelectAio.scan a.pipefd0 a.highfds
      (SelectAio.select (a.highfds+1) (a.readReady rd) a.rfds)
      (SelectAio.select (a.highfds+1) wr a.wfds) := rfl
  have hready : a.readReady rd i = rd i := if_neg hi
  have hhigh : i ∈ a.rfds ∨ i ∈ a.wfds → i ≤ a.highfds := fun hi => h.high.2 (Or.inr hi)
  obtain ⟨hr,hw⟩ := scan_spec a.pipefd0 a.highfds
    (SelectAio.select (a.highfds+1) (a.readReady rd) a.rfds)
    (SelectAio.select (a.highfds+1) wr a.wfds) i
  rw [and_iff_left hi] at hr
  rw [and_iff_left (fun h : _ ∧ _ => hi h.1)] at hw
  rw [hscan, hr, hw, mem_select, mem_select, hready, h.read, h.write, or_iff_right hi]
  rw [h.read, h.write, or_iff_right hi] at hhigh
  constructor
  · exact ⟨fun hmem => ⟨hmem.2.1, hmem.2.2.2⟩, fun hmem =>
      ⟨hhigh (Or.inl hmem.1), hmem.1, Nat.lt_succ_of_le (hhigh (Or.inl hmem.1)), hmem.2⟩⟩
  · exact ⟨fun hmem => ⟨hmem.2.1, hmem.2.2.2⟩, fun hmem =>
      ⟨hhigh (Or.inr hmem.1), hmem.1, Nat.lt_succ_of_le (hhigh (Or.inr hmem.1)), hmem.2⟩⟩

theorem watching_init (pipefd0 pipefd1 : ℕ) : Watching ∅ (SelectAio.init pipefd0 pipefd1) := by
  refine ⟨?_, ?_, fun d h => h, ?_⟩
  · intro fd
    simp [SelectAio.init]
  · intro fd
    simp [SelectAio.init]
  · refine ⟨Or.inl rfl, ?_⟩
    rintro fd (rfl | hfd | hfd)
    · exact le_refl _
    · exact le_of_eq (Finset.mem_singleton.mp hfd)
    · exact absurd hfd (Finset.notMem_empty fd)

theorem watching_run {pipefd0 : ℕ} (pipefd1 : ℕ) {calls : List SelectCall}
    (hcalls : ∀ c ∈ calls, c.Proper pipefd0) :
    ∃ a, run SelectCall.step (SelectAio.init pipefd0 pipefd1) calls = some a ∧
      a.pipefd0 = pipefd0 ∧ Watching (calls.foldl SelectCall.apply ∅) a := by
  induction calls using List.reverseRecOn with
  | nil => exact ⟨_, rfl, rfl, watching_init pipefd0 pipefd1⟩
  | append_singleton calls c ih =>
    obtain ⟨a,hrun,hpipe,hw⟩ := ih (fun c' hc' => hcalls c' (List.mem_append_left _ hc'))
    obtain ⟨hfd,hne,hflag⟩ := hcalls c (List.mem_append_right _ List.mem_cons_self)
    have hstep : ∃ a', c.step a = some a' ∧ a'.pipefd0 = a.pipefd0 ∧
        Watching (c.apply (calls.foldl SelectCall.apply ∅)) a' := by
      cases c with
      | watch fd flag => exact watching_watch hw hfd (hpipe ▸ hne) hflag
      | unwatch fd flag =>
        obtain ⟨b,a',ha',hpipe',hw',-⟩ := watching_unwatch hw hfd (hpipe ▸ hne) hflag
        exact ⟨a', congrArg (Option.map Prod.snd) ha', hpipe', hw'⟩
    obtain ⟨a',ha',hpipe',hw'⟩ := hstep
    refine ⟨a', run_snoc.mpr ⟨a, hrun, ha'⟩, hpipe'.trans hpipe, ?_⟩
    rw [List.foldl_append]
    exact hw'

end

/-- After any calls: the sets are what the calls leave watched, the upper bound is their maximum,
the next `unwatch_fd` tells whether its descriptor is watched any longer, and `wait_ready` reports
every watched descriptor that is ready and no other. -/
theorem select_aio_exact {pipefd0 : ℕ} (pipefd1 : ℕ) {calls : List SelectCall}
    (hcalls : ∀ c ∈ calls, c.Proper pipefd0) :
    ∃ a, run SelectCall.step (SelectAio.init pipefd0 pipefd1) calls = some a ∧
      IsGreatest {fd | fd = pipefd0 ∨ fd ∈ a.rfds ∨ fd ∈ a.wfds} a.highfds ∧
      (∀ fd, fd ∈ a.rfds ↔ fd = pipefd0 ∨ (fd, .read) ∈ calls.foldl SelectCall.apply ∅) ∧
      (∀ fd, fd ∈ a.wfds ↔ (fd, .write) ∈ calls.foldl SelectCall.apply ∅) ∧
      (∀ fd flag, (SelectCall.unwatch fd flag).Proper pipefd0 → ∃ b a',
        a.unwatchFd fd flag = some (b, a') ∧ (b = true ↔ fd ∉ a'.rfds ∧ fd ∉ a'.wfds)) ∧
      ∀ rd wr fd, fd ≠ pipefd0 →
        (fd ∈ (a.waitReady (some (rd, wr))).1.readable ↔
          (fd, .read) ∈ calls.foldl SelectCall.apply ∅ ∧ rd fd = true) ∧
        (fd ∈ (a.waitReady (some (rd, wr))).1.writable ↔
          (fd, .write) ∈ calls.foldl SelectCall.apply ∅ ∧ wr fd = true) := by
  obtain ⟨a,hrun,hpipe,hw⟩ := watching_run pipefd1 hcalls
  subst hpipe
  refine ⟨a, hrun, hw.high, hw.read, hw.write, ?_, ?_⟩
  · intro fd flag hproper
    obtain ⟨b,a',ha',-,-,hb⟩ := watching_unwatch hw hproper.fd_lt hproper.fd_ne hproper.flag
    exact ⟨b, a', ha', hb⟩
  · intro rd wr fd hfd
    exact hw.waitReady rd wr hfd

/-- Descriptor 9 leaves again, and 5 is still watched for writing. -/
theorem select_aio_here : ∃ a, run SelectCall.step (SelectAio.init 3 4)
      [.watch 5 .cbRdwr, .watch 9 .cbRdonly, .unwatch 9 .cbRdwr, .unwatch 5 .cbRdonly] = some a ∧
    IsGreatest {fd | fd = 3 ∨ fd ∈ a.rfds ∨ fd ∈ a.wfds} a.highfds ∧
    ∀ rd wr, 5 ∈ (a.waitReady (some (rd, wr))).1.writable ↔ wr 5 = true := by
  have hproper : ∀ c ∈ [SelectCall.watch 5 .cbRdwr, .watch 9 .cbRdonly, .unwatch 9 .cbRdwr,
      .unwatch 5 .cbRdonly], c.Proper 3 := by
    simp only [List.forall_mem_cons, List.not_mem_nil, false_implies, implies_true, and_true]
    refine ⟨⟨?_, ?_, ?_⟩, ⟨?_, ?_, ?_⟩, ⟨?_, ?_, ?_⟩, ⟨?_, ?_, ?_⟩⟩ <;> decide
  obtain ⟨a,hrun,hhigh,-,-,-,hready⟩ := select_aio_exact 4 hproper
  refine ⟨a, hrun, hhigh, fun rd wr => ?_⟩
  rw [(hready rd wr 5 (by decide)).2]
  simp [SelectCall.apply, PollFlag.has]

end DisconnectedYfs.RPC
