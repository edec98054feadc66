import DisconnectedYfs.YFSUnlinkStages
import DisconnectedYfs.YFSDirectoryFormat

/-! Directories in runs of the file system. As long as no name contains a separator, every directory
parses, and the entries change only as the operations say. -/
namespace DisconnectedYfs.YFS
open Std

/-- The kernel looks up, makes and removes names in directories only, and sets the size of files
and writes to them only. -/
def Op.typed : Op → Bool
  | .create p _ | .mkdir p _ | .unlink p _ | .lookup p _ | .getdirContents p => !isfile p
  | .setattr ino _ | .write ino _ _ _ => isfile ino
  | _ => true

/-- The names that are given to new files and directories have neither a space nor a colon. -/
def Op.plain : Op → Bool
  | .create _ name | .mkdir _ name => Plain name
  | _ => true

section
variable {i mask : ℕ}

theorem drawn_lt (h : Drawn mask i) (hm : mask = 0 ∨ mask = 0x80000000) : i < 2^64 := by
  obtain ⟨n,hn,rfl⟩ := h
  rcases hm with rfl | rfl
  · exact Nat.or_lt_two_pow (by omega) (by omega)
  · exact Nat.or_lt_two_pow (by omega) (by omega)

theorem drawn_file (h : Drawn 0x80000000 i) : isfile i = true := by
  obtain ⟨n,-,rfl⟩ := h
  unfold isfile
  rw [Nat.and_or_distrib_right, Nat.and_self]
  simp

theorem drawn_dir (h : Drawn 0 i) : isfile i = false := by
  obtain ⟨n,hn,rfl⟩ := h
  -- a number below 2^16 has no bit in common with the mask
  have hand : n &&& 2^31 = 0 := by
    apply Nat.eq_of_testBit_eq
    intro j
    rw [Nat.testBit_and, Nat.testBit_two_pow, Nat.zero_testBit]
    by_cases hj : 31 = j
    · rw [← hj, Nat.testBit_lt_two_pow (by omega)]
      rfl
    · simp [hj]
  unfold isfile
  simpa using hand

end

/-- The root directory that the constructor makes. -/
def rootDir : Dir := (∅ : Dir).insert [116, 109, 112] 2

/-- The directories are well-formed, and nobody is about to lose one. -/
structure Fs.Dirs (s : Fs) : Prop where
  ops : ∀ A op p, s.doing A = some (op, p) → op.typed = true ∧ op.plain = true
  wf : ∀ l, isfile l = false → ∀ b, s.sys.content l = some b → ∃ d : Dir, d.Wf ∧ b = d.toStr
  kept : ∀ l, isfile l = false → ∀ B, ¬ s.sys.DoomedBy l B

section
variable {s s' : Fs} {κ κ' : ℕ → Knowledge} {e : FsEvent} {A l : ℕ} {op : Op} {K : Knowledge}
  {b buf : Str} {d : Dir}

theorem Fs.Dirs.parse (h : s.Dirs) (hl : isfile l = false) (hb : s.sys.content l = some b) :
    ∃ d : Dir, d.Wf ∧ b = d.toStr ∧ parseDir b = some d := by
  obtain ⟨d,hd,rfl⟩ := h.wf l hl b hb
  exact ⟨d, hd, rfl, parseDir_toStr hd⟩

theorem rootDir_wf : rootDir.Wf :=
  Dir.Wf.empty.insert (by decide) (by decide)

theorem rootStr_eq : YfsClient.rootStr = rootDir.toStr := by
  have hstr : ([116, 109, 112, 32, 50, 58] : Str) = rootDir.toStr := by decide +kernel
  unfold YfsClient.rootStr
  rw [hstr, parseDir_toStr rootDir_wf]
  rfl

theorem toStr_empty : (∅ : Dir).toStr = [58] := by decide +kernel

theorem Op.Making.mask {name : Str} {mask : ℕ} (h : op.Making name mask buf b d) :
    mask = 0 ∧ buf = [58] ∨ mask = 0x80000000 ∧ buf = [] := by
  have := h.makes
  cases op <;> simp [Op.makes] at this
  · simp [this]
  · simp [this]

theorem Op.Making.plain {name : Str} {mask : ℕ} (h : op.Making name mask buf b d)
    (hp : op.plain = true) : Plain name := by
  have := h.makes
  cases op <;> simp [Op.makes] at this
  · rw [← this.1]
    exact of_decide_eq_true hp
  · rw [← this.1]
    exact of_decide_eq_true hp

theorem Op.Making.linked_wf {mask : ℕ} (h : op.Making name mask buf b d) (hop : op.plain = true)
    (hi : Drawn mask i) : Dir.Wf (d.insert name i) := by
  refine (parseDir_wf h.parsed).insert (h.plain hop) (drawn_lt hi ?_)
  obtain ⟨hm,-⟩ | ⟨hm,-⟩ := h.mask <;> simp [hm]

/-- What is put into a directory is a directory. -/
theorem put_wf {k : Except ExtErr Unit → Prog} (hop : op.typed = true ∧ op.plain = true)
    (hl : isfile l = false) (hst : op.Stands (.put l buf k) K) :
    ∃ d : Dir, d.Wf ∧ buf = d.toStr := by
  generalize hp : Prog.put l buf k = p at hst
  cases hst <;> cases hp
  case rewrite hb =>
    -- `setattr` and `write` are for files
    have hfile : isfile op.main = true := by
      cases op <;> simp_all [Op.rewrites, Op.typed, Op.main]
    rw [hl] at hfile
    cases hfile
  case fill hi hne hm =>
    obtain ⟨rfl,rfl⟩ | ⟨rfl,rfl⟩ := hm.mask
    · exact ⟨∅, Dir.Wf.empty, toStr_empty.symm⟩
    · rw [drawn_file hi] at hl
      cases hl
  case link hm hi hne => exact ⟨_, hm.linked_wf hop.2 hi, rfl⟩
  case erase hd hne _ _ =>
    exact ⟨_, (parseDir_wf hd.parsed).erase _, rfl⟩
  case putRoot => exact ⟨rootDir, rootDir_wf, rootStr_eq⟩
  case putTmp => exact ⟨∅, Dir.Wf.empty, toStr_empty.symm⟩

theorem remove_file {k : Except ExtErr Unit → Prog} (hst : op.Stands (.remove l k) K) :
    isfile l = true :=
  removing_isfile (remove_removing hst)

theorem kept_moves (hm : s.Moves κ s' κ' e) (h : ∀ l, isfile l = false → ∀ B, ¬ s.sys.DoomedBy l B)
    (l : ℕ) (hl : isfile l = false) (B : ℕ) : ¬ s'.sys.DoomedBy l B := by
  intro hB
  cases hm with
  | start _ _ _ hsys | finish _ _ _ hsys =>
    rw [hsys] at hB
    exact h l hl B hB
  | act _ _ _ hpath hp _ _ _ _ _ _ hdoomed =>
    obtain h1 | ⟨-,rfl | ⟨rfl,hk⟩⟩ := hdoomed l B hB
    · exact h l hl B h1
    · cases step_steps hp
      rw [remove_file (path_stands hpath)] at hl
      cases hl
    · cases step_steps hp
      rw [removing_isfile (release_removing (path_stands hpath) hk)] at hl
      cases hl
  | quiet _ _ _ hdoomed =>
    obtain h1 | ⟨-,op,k,-,hpath,hk⟩ := hdoomed l B hB
    · exact h l hl B h1
    · rw [removing_isfile (release_removing (path_stands hpath) hk)] at hl
      cases hl

theorem dirs_moves (h : s.Dirs) (he : e.starts (fun op => op.typed && op.plain) = true)
    (hm : s.Moves κ s' κ' e) : s'.Dirs := by
  refine ⟨doing_moves hm h.ops ?_, fun l hl b hb => ?_, kept_moves hm h.kept⟩
  · rintro A op rfl
    simpa [FsEvent.starts] using he
  -- an extent that is left alone
  have hleave : s.Leaves s' l → ∃ d : Dir, d.Wf ∧ b = d.toStr := by
    rintro (hsame | ⟨-,hnone⟩)
    · exact h.wf l hl b (hsame ▸ hb)
    · rw [hnone] at hb
      cases hb
  cases hm with
  | start _ _ _ hsys | finish _ _ _ hsys =>
    rw [hsys] at hb
    exact h.wf l hl b hb
  | quiet _ _ hcontent => exact hleave (hcontent l)
  | @act A op p p' a K' _ _ _ hs hpath hp _ _ _ _ _ hcontent _ =>
    rcases hcontent l with h1 | ⟨buf,rfl,hbuf⟩ | ⟨rfl,-⟩
    · exact hleave h1
    · rw [hb] at hbuf
      cases hbuf
      cases step_steps hp with
      | @put l buf k r =>
        exact put_wf (h.ops A op _ hs) hl (path_stands hpath)
    · cases step_steps hp
      rw [remove_file (path_stands hpath)] at hl
      cases hl

theorem dirs_init : Fs.init.Dirs := by
  refine ⟨fun A op p h => ?_, fun l _ b h => ?_, fun l _ B h => ?_⟩
  · simp [Fs.init, Fs.doing, Fs.task] at h
  · simp [Fs.init, Sys.content, LockTable.info] at h
  · simp [Fs.init, Sys.DoomedBy] at h

/-- Runs in which no name has a separator. -/
abbrev PlainRun (es : List FsEvent) : Prop :=
  TraceSystem.Meets Fs.step (fun _ e => e.starts (fun op => op.typed && op.plain) = true)
    Fs.init es

/-- Until the root directory exists there is nothing, and the constructor makes `tmp` once. -/
structure Fs.Rooted (s : Fs) (κ : ℕ → Knowledge) : Prop where
  kept : ∀ l, isfile l = false → ∀ B, ¬ s.sys.DoomedBy l B
  root : ∀ l b, s.sys.content l = some b → s.sys.content 1 ≠ none
  tmp : ∀ A p, (s.sys.client A).aborted = false → s.doing A = some (.mount, p) →
    κ A 2 = some .unread → s.sys.content 2 = none

/-- An operation puts what it holds, and unless it is the constructor it knows its own extent. -/
theorem put_known {k : Except ExtErr Unit → Prog} (hst : op.Stands (.put l buf k) K) :
    K l ≠ none ∧ ((∃ b, K op.main = some (.content b)) ∨ op = .mount ∧
      (l = 1 ∨ l = 2 ∧ ∃ b, K 1 = some (.content b))) := by
  generalize hp : Prog.put l buf k = p at hst
  cases hst <;> cases hp
  case rewrite => simp
  case fill hi hne hm => simp [both_first hne]
  case link hm hi hne => simp [both_first hne]
  case erase hd hne _ _ => simp [both_first hne]
  case putRoot hop =>
    exact ⟨by simp [both_first (l := 1) (i := 2)], Or.inr ⟨hop, Or.inl rfl⟩⟩
  case putTmp hop =>
    exact ⟨by simp, Or.inr ⟨hop, Or.inr ⟨rfl, _, both_first (by simp)⟩⟩⟩

/-- A directory that exists stays. -/
theorem kept_content (hm : s.Moves κ s' κ' e)
    (h : ∀ l, isfile l = false → ∀ B, ¬ s.sys.DoomedBy l B)
    (hl : isfile l = false) (hc : s.sys.content l ≠ none) : s'.sys.content l ≠ none := by
  have hleave : s.Leaves s' l → s'.sys.content l ≠ none := by
    rintro (hsame | ⟨⟨B,hB⟩,-⟩)
    · rw [hsame]
      exact hc
    · exact absurd hB (h l hl B)
  cases hm with
  | start _ _ _ hsys | finish _ _ _ hsys =>
    rw [hsys]
    exact hc
  | quiet _ _ hcontent => exact hleave (hcontent l)
  | act _ _ _ hpath hp _ _ _ _ _ hcontent _ =>
    rcases hcontent l with h1 | ⟨buf,rfl,hbuf⟩ | ⟨rfl,hcopy⟩
    · exact hleave h1
    · simp [hbuf]
    · cases step_steps hp
      rw [remove_file (path_stands hpath)] at hl
      cases hl

theorem root_moves (hinv : s.Inv κ) (h : s.Rooted κ) (hm : s.Moves κ s' κ' e) (l : ℕ) (b : Str)
    (hb : s'.sys.content l = some b) : s'.sys.content 1 ≠ none := by
  have hstay : s.sys.content 1 ≠ none → s'.sys.content 1 ≠ none :=
    kept_content hm h.kept (by decide)
  by_cases hl : s.sys.content l = none
  swap
  · obtain ⟨b₀,hb₀⟩ := Option.ne_none_iff_exists'.mp hl
    exact hstay (h.root l b₀ hb₀)
  -- the extent is new: it has just been put
  have hleave : ¬ s.Leaves s' l := by
    rintro (hsame | ⟨-,hnone⟩)
    · rw [hsame, hl] at hb
      cases hb
    · rw [hnone] at hb
      cases hb
  cases hm with
  | start _ _ _ hsys | finish _ _ _ hsys => exact absurd (Or.inl (by rw [hsys])) hleave
  | quiet _ _ hcontent => exact absurd (hcontent l) hleave
  | @act A op p p' a K' _ _ hrun hs hpath hp _ _ _ _ _ hcontent _ =>
    rcases hcontent l with h1 | ⟨buf,rfl,hbuf⟩ | ⟨rfl,hcopy⟩
    · exact absurd h1 hleave
    · cases step_steps hp with
      | @put l buf k r =>
        have hput : ∀ j, ∀ k', Prog.put l buf k ≠ .release j k' := by simp
        obtain ⟨-,⟨b₁,hk⟩ | ⟨-,rfl | ⟨rfl,b₁,hk⟩⟩⟩ := put_known (path_stands hpath)
        · exact hstay (h.root _ b₁ ((known hinv hrun hs (hput _)).2.1 b₁ hk))
        · simp [hb]
        · exact hstay (h.root _ b₁ ((known hinv hrun hs (hput _)).2.1 b₁ hk))
    · obtain ⟨entry,he⟩ := Option.ne_none_iff_exists'.mp hcopy
      rw [(copy_owner hinv.ordered he).2] at hl
      cases hl

/-- While the constructor has the lock of `tmp` and has not made it, it is making both. -/
theorem mount_unread {p : Prog} (hst : Op.mount.Stands p K) (hk : K 2 = some .unread) :
    (∃ buf k, p = .put 1 buf k) ∨ ∃ buf k, p = .put 2 buf k := by
  cases hst
  case get | getattr | leave => simp [Op.main, Knowledge.only] at hk
  case enter | ret | threw | tmp => simp_all [Op.inDir, Knowledge.only]
  case putRoot k _ => exact Or.inl ⟨_, k, rfl⟩
  case putTmp k _ => exact Or.inr ⟨_, k, rfl⟩
  case mounted => simp at hk
  case rewrite hb _ => cases hb
  case draw hm => cases hm.makes
  case tryInum hm _ | probe hm _ _ _ | reject hm _ _ | fill hm _ _ | rename hm _ _ | link hm _ _
    | made hm _ _ => cases hm.makes
  case find hd | erase hd _ _ _ | erased hd _ _ | unlocked hd _ _ | remove hd _ _ =>
    cases hd.unlinks

theorem acquire_mount {k : Status → Prog} (hst : Op.mount.Stands (.acquire 2 k) K) :
    K 1 = some .absent := by
  generalize hp : Prog.acquire 2 k = p at hst
  cases hst <;> cases hp
  case tryInum hm _ => cases hm.makes
  case find hd => cases hd.unlinks
  case tmp => simp

theorem tmp_moves (hinv : s.Inv κ) (h : s.Rooted κ) (hm : s.Moves κ s' κ' e)
    (hback : ∀ A, (s'.sys.client A).aborted = false → (s.sys.client A).aborted = false)
    (A : ℕ) (p : Prog) (hrun : (s'.sys.client A).aborted = false)
    (hd : s'.doing A = some (.mount, p)) (hk : κ' A 2 = some .unread) :
    s'.sys.content 2 = none := by
  have hleave : s.sys.content 2 = none → s.Leaves s' 2 → s'.sys.content 2 = none := by
    rintro h0 (hsame | ⟨-,hnone⟩)
    · rw [hsame, h0]
    · exact hnone
  cases hm with
  | @start B op hs hs' hκ hsys =>
    rw [hsys]
    by_cases hAB : A = B
    · rw [hκ, hAB, Function.update_self] at hk
      cases hk
    · rw [hs', Function.update_of_ne hAB] at hd
      rw [hκ, Function.update_of_ne hAB] at hk
      exact h.tmp A p (hback A hrun) hd hk
  | @finish B op r hs hs' hκ hsys =>
    rw [hsys]
    rw [hs', Function.update_apply] at hd
    split_ifs at hd
    rw [hκ] at hk
    exact h.tmp A p (hback A hrun) hd hk
  | quiet hs' hκ hcontent =>
    rw [hs'] at hd
    rw [hκ] at hk
    exact hleave (h.tmp A p (hback A hrun) hd hk) (hcontent 2)
  | @act B op q q' a K' _ _ hrunB hs hpath hp hl hs' hκ _ _ hcontent _ =>
    have hst := path_stands hpath
    by_cases hAB : A = B
    · subst hAB
      rw [hs', Function.update_self] at hd
      cases hd
      rw [hκ, Function.update_self] at hk
      -- the lock of `tmp` has been there before, or has come with this step
      have hnone : s.sys.content 2 = none := by
        rcases learns_unread hl hk with hold | rfl | rfl
        · exact h.tmp A q hrunB hs hold
        · cases step_steps hp with
          | @acquire _ k =>
            have habsent := acquire_mount hst
            have h1 := (known (l := 1) hinv hrunB hs (by simp)).2.2 habsent
            by_contra hsome
            obtain ⟨b,hb⟩ := Option.ne_none_iff_exists'.mp hsome
            exact h.root 2 b hb h1
        · cases step_steps hp
          have := remove_file hst
          simp [isfile] at this
      rcases hcontent 2 with h1 | ⟨buf,rfl,-⟩ | ⟨rfl,-⟩
      · exact hleave hnone h1
      · cases hl
        simp at hk
      · cases step_steps hp
        have := remove_file hst
        simp [isfile] at this
    · rw [hs', Function.update_of_ne hAB] at hd
      rw [hκ, Function.update_of_ne hAB] at hk
      have hnone := h.tmp A p (hback A hrun) hd hk
      rcases hcontent 2 with h1 | ⟨buf,rfl,-⟩ | ⟨rfl,-⟩
      · exact hleave hnone h1
      · cases step_steps hp with
        | @put _ _ k r =>
          have hpA : ∀ k', p ≠ .release 2 k' := by
            have hstA := path_stands (running_path hinv (hback A hrun) hd)
            obtain ⟨b,k,rfl⟩ | ⟨b,k,rfl⟩ := mount_unread hstA hk <;> simp
          refine absurd (known_unique (l := 2) hinv (hback A hrun) hd hpA (by simp [hk]) hrunB hs
            (by simp) (put_known hst).1) hAB
      · cases step_steps hp
        have := remove_file hst
        simp [isfile] at this

theorem rooted_moves (hinv : s.Inv κ) (h : s.Rooted κ) (hm : s.Moves κ s' κ' e)
    (hback : ∀ A, (s'.sys.client A).aborted = false → (s.sys.client A).aborted = false) :
    s'.Rooted κ' :=
  ⟨kept_moves hm h.kept, root_moves hinv h hm, tmp_moves hinv h hm hback⟩

theorem rooted_init : Fs.init.Rooted (fun _ _ => none) := by
  refine ⟨dirs_init.kept, fun l b h => ?_, fun A p _ h => ?_⟩
  · simp [Fs.init, Sys.content, LockTable.info] at h
  · simp [Fs.init, Fs.doing, Fs.task] at h

theorem dirs_run {es : List FsEvent} (hc : PlainRun es) (hrun : Fs.run es = some s) :
    ∃ κ, s.Inv κ ∧ s.Dirs ∧ s.Rooted κ :=
  moves_run (I := fun s κ => s.Dirs ∧ s.Rooted κ) ⟨dirs_init, rooted_init⟩
    (fun _ _ _ _ _ hinv h hCe _ hm hs =>
      ⟨dirs_moves h.1 hCe hm, rooted_moves hinv h.2 hm (running_back hs)⟩) hc hrun

end

end DisconnectedYfs.YFS
