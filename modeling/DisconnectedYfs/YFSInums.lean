import DisconnectedYfs.YFSNames

/-! Inode numbers. A number that `create` or `mkdir` enters is in no directory, because it has no
extent and its lock is held, and every number in a directory has an extent that nobody is about to
erase. So no number is entered twice. -/
namespace DisconnectedYfs.YFS
open Std

/-- The name of the directory that the constructor makes. -/
def tmpName : Str := [116, 109, 112]

/-- No directory has an entry for the number. -/
def Fs.Unnamed (s : Fs) (i : ℕ) : Prop := ∀ q name, isfile q = false → s.entry q name ≠ some i

/-- The stages of `create` and `mkdir` in which they have a new number, up to its entry. -/
inductive Op.Fresh (op : Op) (i : ℕ) : Prog → Knowledge → Prop
  | fill {name mask buf b d k} (hm : op.Making name mask buf b d) (hi : Drawn mask i)
      (hne : i ≠ op.main) : Fresh op i (.put i buf k) (.both op.main (.content b) i .absent)
  | rename {name mask buf b d k} (hm : op.Making name mask buf b d) (hi : Drawn mask i)
      (hne : i ≠ op.main) :
      Fresh op i (.rename i name k) (.both op.main (.content b) i (.content buf))
  | link {name mask buf b d k} (hm : op.Making name mask buf b d) (hi : Drawn mask i)
      (hne : i ≠ op.main) : Fresh op i (.put op.main (Dir.toStr (d.insert name i)) k)
        (.both op.main (.content b) i (.content buf))

/-- The constructor is about to make the directory `tmp` that the root directory has already. -/
def Fs.Mounting (s : Fs) (κ : ℕ → Knowledge) (A : ℕ) : Prop :=
  (s.sys.client A).aborted = false ∧ κ A 2 = some .unread ∧
    ∃ buf k, s.doing A = some (.mount, .put 2 buf k)

/-- The numbers of the directories' entries: each is that of one entry, and of an extent that is
kept; those that have just been found, or given up, are in no directory. -/
structure Fs.Inums (s : Fs) (κ : ℕ → Knowledge) : Prop where
  unique : ∀ q q' name name' i, isfile q = false → isfile q' = false → s.entry q name = some i →
    s.entry q' name' = some i → q = q' ∧ name = name'
  reserved : ∀ q name i, isfile q = false → s.entry q name = some i →
    i ≠ 1 ∧ (i = 2 → q = 1 ∧ name = tmpName)
  kept : ∀ q name i, isfile q = false → s.entry q name = some i → i ≠ 2 →
    s.sys.content i ≠ none ∧ ∀ B, ¬ s.sys.DoomedBy i B
  tmp : s.sys.content 1 ≠ none → s.sys.content 2 ≠ none ∨ ∃ A, s.Mounting κ A
  fresh : ∀ A op p i, (s.sys.client A).aborted = false → s.doing A = some (op, p) →
    op.Fresh i p (κ A) → s.Unnamed i ∧ i ≠ 1 ∧ i ≠ 2
  dropped : ∀ A op p f, (s.sys.client A).aborted = false → s.doing A = some (op, p) →
    op.Removing f p (κ A) → (∀ l buf k, p ≠ .put l buf k) →
    (s.sys.lockTable.info f).owner = some A → s.Unnamed f

section
variable {s s' : Fs} {κ κ' : ℕ → Knowledge} {e : FsEvent} {A B l p q i f : ℕ} {op : Op}
  {r r' : Prog} {a : Act} {K K' : Knowledge} {b buf name : Str} {d : Dir}

/-- What is known at these stages. -/
theorem fresh_known (h : op.Fresh i r K) : i ≠ op.main ∧ (∃ b, K op.main = some (.content b)) ∧
    (K i = some .absent ∨ ∃ buf, K i = some (.content buf)) ∧
    ((∃ buf k, r = .put i buf k) ∨ (∃ name k, r = .rename i name k) ∨
      ∃ buf k, r = .put op.main buf k) := by
  cases h with
  | @fill name mask buf b d k hm hi hne =>
    exact ⟨hne, ⟨b, both_first hne⟩, Or.inl both_self, Or.inl ⟨buf, k, rfl⟩⟩
  | @rename name mask buf b d k hm hi hne =>
    exact ⟨hne, ⟨b, both_first hne⟩, Or.inr ⟨buf, both_self⟩, Or.inr (Or.inl ⟨name, k, rfl⟩)⟩
  | @link name mask buf b d k hm hi hne =>
    exact ⟨hne, ⟨b, both_first hne⟩, Or.inr ⟨buf, both_self⟩, Or.inr (Or.inr ⟨_, k, rfl⟩)⟩

theorem fresh_makes (h : op.Fresh i r K) : op.makes ≠ none := by
  cases h with
  | fill hm | rename hm | link hm => simp [hm.makes]

theorem fresh_unused (h : op.Fresh i r K) : ∃ name mask buf b d, op.Making name mask buf b d ∧
    K op.main = some (.content b) := by
  cases h with
  | @fill name mask buf b d k hm hi hne | @rename name mask buf b d k hm hi hne
    | @link name mask buf b d k hm hi hne => exact ⟨name, mask, buf, b, d, hm, both_first hne⟩

theorem fresh_not_release {k : Prog} (h : op.Fresh i r K) (l : ℕ) : r ≠ .release l k := by
  obtain ⟨-,-,-,⟨_,_,rfl⟩ | ⟨_,_,rfl⟩ | ⟨_,_,rfl⟩⟩ := fresh_known h <;> simp

/-- Two locks at most: that of the directory and that of the number. -/
theorem fresh_only {w : Know} (h : op.Fresh i r (.only op.main w)) : False := by
  obtain ⟨hne,-,hk,-⟩ := fresh_known h
  rw [only_of_ne hne] at hk
  simp at hk

theorem fresh_both {w w' : Know} (h : op.Fresh i r (.both op.main w l w')) : i = l := by
  obtain ⟨hne,-,hk,-⟩ := fresh_known h
  have hknown : Knowledge.both op.main w l w' i ≠ none := by
    obtain hk | ⟨_,hk⟩ := hk <;> simp [hk]
  exact both_self_ne hne hknown

/-- How an operation comes to these stages: it has been told that there is no such extent. -/
theorem fresh_back (hplain : op.plain = true) (hst : op.Stands r K) (hr : r.step a = some r')
    (hl : Learns K a K') (h : op.Fresh i r' K') :
    op.Fresh i r K ∧ (∀ buf k, r ≠ .put op.main buf k) ∨ K' i = some .absent := by
  have hmakes := fresh_makes h
  have hunread : ∀ {w l}, K' = .both op.main w l .unread → False := by
    rintro w l rfl
    obtain rfl := fresh_both h
    obtain ⟨-,-,hk,-⟩ := fresh_known h
    rw [both_self] at hk
    simp at hk
  cases hst with
  | enter =>
    cases step_steps hr
    cases hl
    exact (fresh_only h).elim
  | get =>
    cases step_steps hr
    cases hl <;> exact (fresh_only (update_only ▸ h)).elim
  | getattr =>
    cases step_steps hr
    cases hl <;> exact (fresh_only (update_only ▸ h)).elim
  | threw | ret => cases hr
  | leave =>
    cases step_steps hr
    obtain ⟨-,-,-,⟨_,_,h⟩ | ⟨_,_,h⟩ | ⟨_,_,h⟩⟩ := fresh_known h <;> cases h
  | rewrite hb =>
    cases op <;> simp [Op.rewrites, Op.makes] at hb hmakes
  | draw =>
    cases step_steps hr
    cases hl
    exact (fresh_only h).elim
  | tryInum =>
    cases step_steps hr
    cases hl
    exact (hunread rfl).elim
  | @probe name mask buf b d j k k' hm hi hne hk =>
    cases step_steps hr
    cases hl with
    | @get _ b' =>
      rw [hk] at h
      exact absurd rfl (fresh_not_release h j)
    | getNone =>
      rw [update_both] at h ⊢
      obtain rfl := fresh_both h
      exact Or.inr both_self
  | @reject name mask buf b b' d j k hm hi hne =>
    cases step_steps hr
    cases hl
    rw [both_release hne] at h
    exact (fresh_only h).elim
  | @fill name mask buf b d j k hm hi hne =>
    cases step_steps hr
    cases hl
    rw [update_both] at h
    obtain rfl := fresh_both h
    refine Or.inl ⟨.fill hm hi hne, ?_⟩
    rintro _ _ ⟨⟩
    exact hne rfl
  | @rename name mask buf b d j k hm hi hne =>
    cases step_steps hr
    cases hl with
    | rename =>
      rw [update_both] at h
      obtain rfl := fresh_both h
      exact Or.inl ⟨.rename hm hi hne, by simp⟩
    | renameNone hk => simp at hk
  | @link name mask buf b d j k hm hi hne =>
    -- the name is taken now
    cases step_steps hr
    cases hl
    rw [both_put hne] at h
    obtain ⟨name',mask',buf',b',d',hm',hb'⟩ := fresh_unused h
    rw [both_first hne] at hb'
    cases hb'
    have hparsed := hm'.parsed
    rw [parseDir_toStr (hm.linked_wf hplain hi)] at hparsed
    cases hparsed
    have hname := hm.makes.symm.trans hm'.makes
    cases hname
    have hunused := hm'.unused
    rw [dir_getElem_insert, if_pos rfl] at hunused
    cases hunused
  | made hm hi hne =>
    cases step_steps hr
    obtain ⟨-,-,-,⟨_,_,h⟩ | ⟨_,_,h⟩ | ⟨_,_,h⟩⟩ := fresh_known h <;> cases h
  | find =>
    cases step_steps hr
    cases hl
    exact (hunread rfl).elim
  | erase hd | erased hd | unlocked hd | remove hd => 
    rw [hd.unlinks] at hmakes
    exact absurd rfl hmakes
  | tmp hop | putRoot hop | putTmp hop | mounted hop =>
    rw [hop] at hmakes
    exact absurd rfl hmakes

/-- How an entry can change. -/
inductive Fs.Enters (s : Fs) (κ : ℕ → Knowledge) (s' : Fs) (e : FsEvent) (q : ℕ) (name : Str) : Prop
  | same (h : s'.entry q name = s.entry q name)
  | gone (h : s'.entry q name = none)
  | linked {A op i b k} (he : e.actor = some A) (hrun : (s.sys.client A).aborted = false)
      (hd : s.doing A = some (op, .put q b k)) (hq : q = op.main)
      (hfresh : op.Fresh i (.put q b k) (κ A)) (hname : op.makes.map Prod.fst = some name)
      (h : s'.entry q name = some i) : Enters s κ s' e q name
  | rooted (hnew : s.sys.content 1 = none) (hq : q = 1) (h : s'.entry q name = rootDir[name]?)

theorem enters_put {k : Except ExtErr Unit → Prog} (hinv : s.Inv κ) (h : s.Dirs)
    (hq : isfile q = false) (he : e.actor = some A) (hrun : (s.sys.client A).aborted = false)
    (hd : s.doing A = some (op, .put q buf k)) (hbuf : s'.sys.content q = some buf) (name : Str) :
    s.Enters κ s' e q name := by
  have hput := put_entry hinv h hq hrun hd hbuf name
  generalize hK : κ A = K at hput
  generalize hr : Prog.put q buf k = r at hput hd
  cases hput with
  | same h => exact .same h
  | linked hm hi hne _ hnew =>
    refine .linked he hrun hd rfl ?_ (by rw [hm.makes]; rfl) hnew
    rw [hK]
    exact .link hm hi hne
  | erased _ hnew => exact .gone hnew
  | root _ hnone hnew => exact .rooted hnone rfl hnew
  | tmp _ _ hnew => exact .gone hnew

theorem enters_moves (hinv : s.Inv κ) (h : s.Dirs) (hm : s.Moves κ s' κ' e)
    (hq : isfile q = false) (name : Str) : s.Enters κ s' e q name := by
  cases hm with
  | start _ _ _ hsys | finish _ _ _ hsys => exact .same (entry_congr (by rw [hsys]) name)
  | quiet _ _ hcontent => exact .same (entry_left h hq (hcontent q) name)
  | act he hrun hs hpath hr _ _ _ _ _ hcontent _ =>
    rcases hcontent q with h1 | ⟨buf,rfl,hbuf⟩ | ⟨rfl,-⟩
    · exact .same (entry_left h hq h1 name)
    · cases step_steps hr
      exact enters_put hinv h hq he hrun hs hbuf name
    · cases step_steps hr
      rw [remove_file (path_stands hpath)] at hq
      cases hq

/-- Whoever has a new number has its lock, so nobody else is entering it. -/
theorem fresh_unique {op' : Op} (hinv : s.Inv κ) (hA : (s.sys.client A).aborted = false)
    (hdA : s.doing A = some (op, r)) (hf : op.Fresh i r (κ A))
    (hB : (s.sys.client B).aborted = false) (hdB : s.doing B = some (op', r'))
    (hf' : op'.Fresh i r' (κ B)) : A = B := by
  have hknown : ∀ {op r K}, Op.Fresh op i r K → K i ≠ none := by
    intro op r K h
    obtain ⟨-,-,hk | ⟨buf,hk⟩,-⟩ := fresh_known h <;> simp [hk]
  exact known_unique hinv hA hdA (fun k => fresh_not_release hf i) (hknown hf) hB hdB
    (fun k => fresh_not_release hf' i) (hknown hf')

/-- While somebody has a new number, the root directory exists. -/
theorem fresh_root (hinv : s.Inv κ) (hroot : s.Rooted κ) (hA : (s.sys.client A).aborted = false)
    (hd : s.doing A = some (op, r)) (hf : op.Fresh i r (κ A)) : s.sys.content 1 ≠ none := by
  obtain ⟨-,⟨b,hb⟩,-⟩ := fresh_known hf
  exact hroot.root _ b ((known hinv hA hd (fun k => fresh_not_release hf op.main)).2.1 b hb)

theorem rootDir_entry : rootDir[name]? = if tmpName = name then some 2 else none := by
  unfold rootDir tmpName
  rw [dir_getElem_insert]
  simp

/-- An entry that is there after the step. -/
theorem entered (h : s.Enters κ s' e q name) (hi : s'.entry q name = some i) :
    s.entry q name = some i ∨
    (∃ A op b k, e.actor = some A ∧ (s.sys.client A).aborted = false ∧
      s.doing A = some (op, .put q b k) ∧ q = op.main ∧ op.Fresh i (.put q b k) (κ A) ∧
      op.makes.map Prod.fst = some name) ∨
    s.sys.content 1 = none ∧ q = 1 ∧ name = tmpName ∧ i = 2 := by
  cases h with
  | same h => exact Or.inl (h.symm.trans hi)
  | gone h =>
    rw [h] at hi
    cases hi
  | @linked A op j b k he hrun hd hq hfresh hname h =>
    cases h.symm.trans hi
    exact Or.inr (Or.inl ⟨A, op, b, k, he, hrun, hd, hq, hfresh, hname⟩)
  | rooted hnew hq h =>
    rw [h, rootDir_entry] at hi
    split_ifs at hi with hname
    cases hi
    exact Or.inr (Or.inr ⟨hnew, hq, hname.symm, rfl⟩)

theorem unrooted (hroot : s.Rooted κ) (h : s.sys.content 1 = none) (q : ℕ) (name : Str) :
    s.entry q name = none := by
  apply entry_of_none
  by_contra hsome
  obtain ⟨b,hb⟩ := Option.ne_none_iff_exists'.mp hsome
  exact hroot.root q b hb h

theorem unique_moves (hinv : s.Inv κ) (hdirs : s.Dirs) (hroot : s.Rooted κ) (h : s.Inums κ)
    (hm : s.Moves κ s' κ' e) (q q' : ℕ) (name name' : Str) (i : ℕ) (hq : isfile q = false)
    (hq' : isfile q' = false) (hi : s'.entry q name = some i) (hi' : s'.entry q' name' = some i) :
    q = q' ∧ name = name' := by
  rcases entered (enters_moves hinv hdirs hm hq name) hi with
    h1 | ⟨A,op,b,k,he,hrun,hd,hqm,hf,hn⟩ | ⟨hnew,rfl,rfl,rfl⟩ <;>
  rcases entered (enters_moves hinv hdirs hm hq' name') hi' with
    h1' | ⟨A',op',b',k',he',hrun',hd',hqm',hf',hn'⟩ | ⟨hnew',rfl,rfl,h2⟩
  · exact h.unique q q' name name' i hq hq' h1 h1'
  · exact absurd h1 ((h.fresh A' op' _ i hrun' hd' hf').1 q name hq)
  · rw [unrooted hroot hnew'] at h1
    cases h1
  · exact absurd h1' ((h.fresh A op _ i hrun hd hf).1 q' name' hq')
  · cases he.symm.trans he'
    cases hd.symm.trans hd'
    exact ⟨hqm.trans hqm'.symm, Option.some.inj (hn.symm.trans hn')⟩
  · exact absurd hnew' (fresh_root hinv hroot hrun hd hf)
  · rw [unrooted hroot hnew] at h1'
    cases h1'
  · exact absurd hnew (fresh_root hinv hroot hrun' hd' hf')
  · exact ⟨rfl, rfl⟩

theorem reserved_moves (hinv : s.Inv κ) (hdirs : s.Dirs) (h : s.Inums κ)
    (hm : s.Moves κ s' κ' e) (q : ℕ) (name : Str) (i : ℕ) (hq : isfile q = false)
    (hi : s'.entry q name = some i) : i ≠ 1 ∧ (i = 2 → q = 1 ∧ name = tmpName) := by
  rcases entered (enters_moves hinv hdirs hm hq name) hi with
    h1 | ⟨A,op,b,k,-,hrun,hd,-,hf,-⟩ | ⟨-,rfl,rfl,rfl⟩
  · exact h.reserved q name i hq h1
  · obtain ⟨-,hi1,hi2⟩ := h.fresh A op _ i hrun hd hf
    exact ⟨hi1, fun h2 => absurd h2 hi2⟩
  · exact ⟨by simp, fun _ => ⟨rfl, rfl⟩⟩

/-- An extent stays unless an `unlink` that has the lock, or has had it last, is about to remove
it. -/
theorem extent_kept (hinv : s.Inv κ) (hm : s.Moves κ s' κ' e) (hs : s.Steps e s')
    (hc : s.sys.content i ≠ none) (hdoom : ∀ B, ¬ s.sys.DoomedBy i B)
    (hno : ∀ B op r, (s.sys.client B).aborted = false → s.doing B = some (op, r) →
      op.Removing i r (κ B) → (∀ l buf k, r ≠ .put l buf k) →
      (s.sys.lockTable.info i).owner ≠ some B) :
    s'.sys.content i ≠ none ∧ ∀ B, ¬ s'.sys.DoomedBy i B := by
  have hleave : s.Leaves s' i → s'.sys.content i ≠ none := by
    rintro (hsame | ⟨⟨B,hB⟩,-⟩)
    · rw [hsame]
      exact hc
    · exact absurd hB (hdoom B)
  cases hm with
  | start _ _ _ hsys | finish _ _ _ hsys =>
    rw [hsys]
    exact ⟨hc, hdoom⟩
  | quiet _ _ hcontent hdoomed =>
    refine ⟨hleave (hcontent i), ?_⟩
    intro B hB
    obtain h1 | ⟨hrun,op,k,hd,hpath,hk⟩ := hdoomed i B hB
    · exact hdoom B h1
    · exact hno B op _ hrun hd (release_removing (path_stands hpath) hk) (by simp)
        (owner_back hinv hs hrun hd (by simp) hB.1)
  | @act A op r r' a K' _ he hrun hd hpath hr _ _ _ _ _ hcontent hdoomed =>
    refine ⟨?_, ?_⟩
    · rcases hcontent i with h1 | ⟨buf,rfl,hbuf⟩ | ⟨rfl,hcopy⟩
      · exact hleave h1
      · simp [hbuf]
      · cases step_steps hr
        obtain ⟨entry,hentry⟩ := Option.ne_none_iff_exists'.mp hcopy
        exact absurd (copy_owner hinv.ordered hentry).1
          (hno A op _ hrun hd (remove_removing (path_stands hpath)) (by simp))
    · intro B hB
      obtain h1 | ⟨rfl,rfl | ⟨rfl,hk⟩⟩ := hdoomed i B hB
      · exact hdoom B h1
      · cases step_steps hr
        exact hno B op _ hrun hd (remove_removing (path_stands hpath)) (by simp)
          (owner_back hinv hs hrun hd (by simp) hB.1)
      · cases step_steps hr
        exact hno B op _ hrun hd (release_removing (path_stands hpath) hk) (by simp)
          (owner_back hinv hs hrun hd (by simp) hB.1)

theorem fresh_owner (hinv : s.Inv κ) (hA : (s.sys.client A).aborted = false)
    (hd : s.doing A = some (op, r)) (hf : op.Fresh i r (κ A)) :
    (s.sys.lockTable.info i).owner = some A ∧ ∀ B, ¬ s.sys.DoomedBy i B := by
  have hknown : κ A i ≠ none := by
    obtain ⟨-,-,hk | ⟨buf,hk⟩,-⟩ := fresh_known hf <;> simp [hk]
  exact has_owner hinv.ordered ((known hinv hA hd (fun k => fresh_not_release hf i)).1 hknown)

theorem entry_kept (hinv : s.Inv κ) (hdirs : s.Dirs) (h : s.Inums κ) (hm : s.Moves κ s' κ' e)
    (hs : s.Steps e s') (q : ℕ) (name : Str) (i : ℕ) (hq : isfile q = false)
    (hi : s'.entry q name = some i) (hne : i ≠ 2) :
    s'.sys.content i ≠ none ∧ ∀ B, ¬ s'.sys.DoomedBy i B := by
  rcases entered (enters_moves hinv hdirs hm hq name) hi with
    h1 | ⟨A,op,b,k,-,hrun,hd,rfl,hf,-⟩ | ⟨-,-,-,h2⟩
  · obtain ⟨hc,hdoom⟩ := h.kept q name i hq h1 hne
    refine extent_kept hinv hm hs hc hdoom ?_
    intro B op r hB hdB hrem hput howner
    exact h.dropped B op r i hB hdB hrem hput howner q name hq h1
  · -- it has been put before its entry
    obtain ⟨howner,hdoom⟩ := fresh_owner hinv hrun hd hf
    have hc : s.sys.content i ≠ none := by
      obtain ⟨hneq,-,hk | ⟨buf,hk⟩,-⟩ := fresh_known hf
      · exfalso
        generalize κ A = K at hf hk
        generalize hr : Prog.put op.main b k = r at hf
        cases hf <;> cases hr
        · exact hneq rfl
        · simp at hk
      · simp [(known hinv hrun hd (by simp)).2.1 buf hk]
    refine extent_kept hinv hm hs hc hdoom ?_
    intro B op' r hB hdB hrem _ howner'
    cases howner.symm.trans howner'
    cases hd.symm.trans hdB
    obtain ⟨⟨name',hop⟩,-⟩ := removing_known hrem
    apply fresh_makes hf
    rw [hop]
    rfl
  · exact absurd h2 hne

/-- A put does not end the process. -/
theorem put_running {k : Except ExtErr Unit → Prog} (hinv : s.Inv κ) (hs : s.Steps e s')
    (hrun : (s.sys.client A).aborted = false) (hd : s.doing A = some (op, .put l buf k)) :
    (s'.sys.client A).aborted = false := by
  rcases fs_sys hs with ⟨heq,-⟩ | ⟨B,op',p,m,rfl,htask,hm,hsys⟩ | ⟨e',rfl,he',hsys⟩
  · rw [heq]
    exact hrun
  · by_cases hB : A = B
    · subst hB
      rw [doing_eq htask] at hd
      cases hd
      cases hm
      exact (not_busy_iff.mp (put_not_busy hsys)).1
    · rw [client_others hsys hB]
      exact hrun
  · by_cases hc : ∃ B T m, e' = .client B T m
    · obtain ⟨B,T,m,rfl⟩ := hc
      by_cases hB : A = B
      · subst hB
        obtain ⟨rfl,-⟩ := isInner_client he'
        have hcalls := inner_calls he' hsys
        exfalso
        cases hinv.standing A with
        | gone hab =>
          rw [hrun] at hab
          cases hab
        | idle _ hth =>
          rw [hth] at hcalls
          exact hcalls rfl
        | ready _ _ hno => exact hcalls hno
        | busy htask _ hin =>
          rw [doing_eq htask] at hd
          cases hd
          cases hin with
          | acquiring hp | releasing hp => cases hp
          | loading hm => cases hm
      · rw [client_others hsys hB]
        exact hrun
    · have hmsg := message_step he' (fun B T m heq => hc ⟨B, T, m, heq⟩) hsys
      exact (hmsg.aborted A).trans hrun

theorem mount_root {k : Except ExtErr Unit → Prog} (hst : Op.mount.Stands (.put 1 buf k) K) :
    K 1 = some .absent ∧ K 2 = some .unread := by
  generalize hr : Prog.put 1 buf k = r at hst
  cases hst <;> cases hr
  case rewrite hb _ => cases hb
  case link hm _ _ | fill hm => cases hm.makes
  case erase hd _ _ _ => cases hd.unlinks
  case putRoot => exact ⟨both_first (by simp), both_self⟩

/-- The constructor has made the root directory, and makes `tmp` next. -/
theorem mount_put (hst : Op.mount.Stands r K) (h1 : K 1 ≠ some .absent)
    (h2 : K 2 = some .unread) : ∃ buf k, r = .put 2 buf k := by
  obtain ⟨buf,k,rfl⟩ | hput := mount_unread hst h2
  · exact absurd (mount_root hst).1 h1
  · exact hput

theorem mounting_moves (hinv : s.Inv κ) (hinv' : s'.Inv κ') (hroot : s.Rooted κ) (h : s.Inums κ)
    (hm : s.Moves κ s' κ' e) (hs : s.Steps e s') (h1 : s'.sys.content 1 ≠ none) :
    s'.sys.content 2 ≠ none ∨ ∃ A, s'.Mounting κ' A := by
  by_cases hold : s.sys.content 1 = none
  · -- the root directory is new
    have hleave : ¬ s.Leaves s' 1 := by
      rintro (hsame | ⟨-,hnone⟩)
      · exact h1 (hsame.trans hold)
      · exact h1 hnone
    cases hm with
    | start _ _ _ hsys | finish _ _ _ hsys => exact absurd (Or.inl (by rw [hsys])) hleave
    | quiet _ _ hcontent => exact absurd (hcontent 1) hleave
    | @act A op r r' a K' _ he hrun hd hpath hr hl hs' hκ hrun' hagree hcontent _ =>
      rcases hcontent 1 with h1' | ⟨buf,rfl,-⟩ | ⟨rfl,-⟩
      · exact absurd h1' hleave
      · cases step_steps hr with
        | @put _ _ k res =>
          obtain ⟨-,⟨b,hk⟩ | ⟨rfl,-⟩⟩ := put_known (path_stands hpath)
          · exact absurd hold (hroot.root _ b ((known hinv hrun hd (by simp)).2.1 b hk))
          · have hunread := (mount_root (path_stands hpath)).2
            have hst' := path_stands (hpath.step hr hl)
            cases hl
            have hk2 : Function.update (κ A) 1 (some (.content buf)) 2 = some .unread :=
              (Function.update_of_ne (by simp) _ _).trans hunread
            obtain ⟨buf',k',hput⟩ := mount_put hst' (by simp) hk2
            refine Or.inr ⟨A, hrun', by rw [hκ, Function.update_self]; exact hk2, buf', k', ?_⟩
            rw [hs', Function.update_self, hput]
      · cases step_steps hr
        have := remove_file (path_stands hpath)
        simp [isfile] at this
  · rcases h.tmp hold with hc | ⟨A,hrun,hk,buf,k,hd⟩
    · exact Or.inl (kept_content hm hroot.kept (by decide) hc)
    · have hstays : κ' A = κ A → s'.doing A = s.doing A → s'.Mounting κ' A := by
        intro hκ hd'
        exact ⟨put_running hinv hs hrun hd, by rw [hκ]; exact hk, buf, k, hd'.trans hd⟩
      cases hm with
      | @start B op hs₀ hs' hκ =>
        have hAB : A ≠ B := by
          rintro rfl
          rw [hs₀] at hd
          cases hd
        refine Or.inr ⟨A, hstays ?_ ?_⟩
        · rw [hκ, Function.update_of_ne hAB]
        · rw [hs', Function.update_of_ne hAB]
      | @finish B op res hs₀ hs' hκ =>
        have hAB : A ≠ B := by
          rintro rfl
          rw [hs₀] at hd
          cases hd
        refine Or.inr ⟨A, hstays (by rw [hκ]) ?_⟩
        rw [hs', Function.update_of_ne hAB]
      | quiet hs' hκ => exact Or.inr ⟨A, hstays (by rw [hκ]) (by rw [hs'])⟩
      | @act B op r r' a K' _ he hrunB hdB hpath hr hl hs' hκ _ hagree =>
        by_cases hAB : A = B
        · subst hAB
          cases hd.symm.trans hdB
          cases step_steps hr
          cases hl
          left
          have hnew := (agrees_content (l := 2) hinv'.ordered hagree).2.1 buf (by simp)
          simp [hnew]
        · refine Or.inr ⟨A, hstays ?_ ?_⟩
          · rw [hκ, Function.update_of_ne hAB]
          · rw [hs', Function.update_of_ne hAB]

/-- Where an operation that is under way has been before the step. -/
theorem moves_back (hm : s.Moves κ s' κ' e) (hd : s'.doing A = some (op, r')) :
    s.doing A = some (op, r') ∧ κ' A = κ A ∧ (e.actor = some A → ∀ l, s.Leaves s' l) ∨
      r' = op.prog ∧ (κ' A = fun _ => none) ∨
      ∃ r a, e.actor = some A ∧ (s.sys.client A).aborted = false ∧ s.doing A = some (op, r) ∧
        Path op r (κ A) ∧ r.step a = some r' ∧ Learns (κ A) a (κ' A) ∧
        ((s'.sys.client A).localAt s'.sys.table 0).Agrees (κ' A) := by
  cases hm with
  | @start B op' _ hs' hκ hsys =>
    by_cases hAB : A = B
    · subst hAB
      rw [hs', Function.update_self] at hd
      cases hd
      exact Or.inr (Or.inl ⟨rfl, by rw [hκ, Function.update_self]⟩)
    · rw [hs', Function.update_of_ne hAB] at hd
      exact Or.inl ⟨hd, by rw [hκ, Function.update_of_ne hAB], fun _ l => Or.inl (by rw [hsys])⟩
  | @act B op' q q' a K' _ he hrun hs hpath hp hl hs' hκ _ hagree =>
    by_cases hAB : A = B
    · subst hAB
      rw [hs', Function.update_self] at hd
      cases hd
      have hK : κ' A = K' := by rw [hκ, Function.update_self]
      rw [hK]
      exact Or.inr (Or.inr ⟨q, a, he, hrun, hs, hpath, hp, hl, hagree⟩)
    · rw [hs', Function.update_of_ne hAB] at hd
      refine Or.inl ⟨hd, by rw [hκ, Function.update_of_ne hAB], ?_⟩
      intro he'
      exact absurd (Option.some.inj (he'.symm.trans he)) hAB
  | quiet hs' hκ hcontent =>
    rw [hs'] at hd
    exact Or.inl ⟨hd, by rw [hκ], fun _ => hcontent⟩
  | @finish B _ _ _ hs' hκ hsys =>
    rw [hs', Function.update_apply] at hd
    split_ifs at hd
    exact Or.inl ⟨hd, by rw [hκ], fun _ l => Or.inl (by rw [hsys])⟩

/-- A number stays in no directory while somebody has it new and does not enter it. -/
theorem unnamed_stays (hinv : s.Inv κ) (hdirs : s.Dirs) (hm : s.Moves κ s' κ' e)
    (hun : s.Unnamed i) (h2 : i ≠ 2)
    (hno : ∀ B op r, e.actor = some B → (s.sys.client B).aborted = false →
      s.doing B = some (op, r) → (∃ buf k, r = .put op.main buf k) → ¬ op.Fresh i r (κ B)) :
    s'.Unnamed i := by
  intro q name hq hi
  rcases entered (enters_moves hinv hdirs hm hq name) hi with
    h1 | ⟨B,op,b,k,he,hrun,hd,rfl,hf,-⟩ | ⟨-,-,-,rfl⟩
  · exact hun q name hq h1
  · exact hno B op _ he hrun hd ⟨b, k, rfl⟩ hf
  · exact h2 rfl

theorem fresh_moves (hinv : s.Inv κ) (hinv' : s'.Inv κ') (hdirs : s.Dirs) (hroot : s.Rooted κ)
    (hroot' : s'.Rooted κ') (h : s.Inums κ) (hm : s.Moves κ s' κ' e) (hs : s.Steps e s')
    (hback : ∀ A, (s'.sys.client A).aborted = false → (s.sys.client A).aborted = false)
    (A : ℕ) (op : Op) (r' : Prog) (i : ℕ) (hrun' : (s'.sys.client A).aborted = false)
    (hd' : s'.doing A = some (op, r')) (hf : op.Fresh i r' (κ' A)) :
    s'.Unnamed i ∧ i ≠ 1 ∧ i ≠ 2 := by
  rcases moves_back hm hd' with ⟨hd,hκ,hleave⟩ | ⟨-,hκ⟩ | ⟨r,a,he,hrun,hd,hpath,hr,hl,hagree⟩
  · rw [hκ] at hf
    obtain ⟨hun,h1,h2⟩ := h.fresh A op r' i (hback A hrun') hd hf
    refine ⟨?_, h1, h2⟩
    by_cases hact : e.actor = some A
    · intro q name hq hi
      rw [entry_left hdirs hq (hleave hact q)] at hi
      exact hun q name hq hi
    · refine unnamed_stays hinv hdirs hm hun h2 ?_
      intro B op' r he hB hdB _ hfB
      obtain rfl := fresh_unique hinv (hback A hrun') hd hf hB hdB hfB
      exact hact he
  · obtain ⟨-,⟨b,hb⟩,-⟩ := fresh_known hf
    rw [hκ] at hb
    cases hb
  · obtain ⟨hf₀,hput⟩ | habsent :=
      fresh_back (hdirs.ops A op r hd).2 (path_stands hpath) hr hl hf
    · obtain ⟨hun,h1,h2⟩ := h.fresh A op r i hrun hd hf₀
      refine ⟨unnamed_stays hinv hdirs hm hun h2 ?_, h1, h2⟩
      rintro B op' r₀ he' hB hdB ⟨buf,k,rfl⟩ -
      cases he.symm.trans he'
      cases hd.symm.trans hdB
      exact hput buf k rfl
    · -- the number is new: there is no such extent
      have hnone := (agrees_content (l := i) hinv'.ordered hagree).2.2 habsent
      have hroot1 := fresh_root hinv' hroot' hrun' hd' hf
      have h2 : i ≠ 2 := by
        rintro rfl
        rcases mounting_moves hinv hinv' hroot h hm hs hroot1 with hsome | ⟨B,hB,hk,buf,k,hdB⟩
        · exact hsome hnone
        · have hAB := known_unique (l := 2) hinv' hrun' hd' (fun k => fresh_not_release hf 2)
            (by simp [habsent]) hB hdB (by simp) (by simp [hk])
          subst hAB
          cases hd'.symm.trans hdB
          exact fresh_makes hf rfl
      refine ⟨?_, ?_, h2⟩
      · intro q name hq hi
        exact (entry_kept hinv hdirs h hm hs q name i hq hi h2).1 hnone
      · rintro rfl
        exact hroot1 hnone

theorem prog_removes (op : Op) : op.prog.removes = none := by
  cases op <;> rfl

/-- With the lock of the file `unlink` first removes the entry. -/
theorem locked_put {k : Status → Prog} (hst : op.Stands (.acquire f k) K)
    (hop : op = .unlink op.main name)
    (h : op.Removing f r (Function.update K f (some .unread))) : ∃ l buf k, r = .put l buf k := by
  generalize hr : Prog.acquire f k = r₀ at hst
  cases hst <;> cases hr
  case enter =>
    have hfalse := removing_not_read (w := .unread) (fun b r h _ => by cases h) h
    exact hfalse.elim
  case tryInum hm _ => exact absurd hop (hm.not_unlink _ _)
  case tmp hm =>
    rw [hop] at hm
    cases hm
  case find name₁ b d hd =>
    generalize hK : Function.update (Knowledge.only op.main (.content b)) f (some .unread) = K' at h
    have hself : K' f = some .unread := by rw [← hK, Function.update_self]
    cases h with
    | erase => exact ⟨_, _, _, rfl⟩
    | @erased name₂ b₂ d₂ k hd₂ hne =>
      -- the directory still has the name
      exfalso
      have hmain := congrFun hK op.main
      rw [Function.update_of_ne hne.symm, only_self, both_first hne] at hmain
      cases hmain
      have hparsed := hd.parsed
      rw [parseDir_toStr ((parseDir_wf hd₂.parsed).erase name₂)] at hparsed
      cases hparsed
      have hname : name₁ = name₂ := by
        have := hd.unlinks.symm.trans hd₂.unlinks
        cases this
        rfl
      have hentry := hd.entry
      rw [dir_getElem_erase, if_pos hname.symm] at hentry
      cases hentry
    | unlocked hd₂ hne =>
      rw [only_of_ne hne] at hself
      cases hself
    | remove => cases hself

/-- The entry that `unlink` removes was the only one with its number. -/
theorem erased_unnamed {k : Except ExtErr Unit → Prog} (hinv : s.Inv κ) (hinv' : s'.Inv κ')
    (hdirs : s.Dirs) (h : s.Inums κ) (hm : s.Moves κ s' κ' e) (he : e.actor = some A)
    (hrun : (s.sys.client A).aborted = false) (hd : s.doing A = some (op, .put l buf k))
    (hrem : op.Removing f (.put l buf k) (κ A))
    (hl : Learns (κ A) (.put l buf (.ok ())) (κ' A))
    (hagree : ((s'.sys.client A).localAt s'.sys.table 0).Agrees (κ' A)) : s'.Unnamed f := by
  have hops := hdirs.ops A op _ hd
  have hcontent := (known (l := op.main) hinv hrun hd (by simp)).2.1
  generalize hK : κ A = K at hrem hl hcontent
  generalize hK' : κ' A = K' at hl hagree
  generalize hr : Prog.put l buf k = r at hrem hd
  cases hrem <;> cases hr
  case erase name b d k' hd' hne _ =>
    have hq : isfile op.main = false := by
      have := hops.1
      rw [hd'.unlinks] at this
      simpa [Op.typed] using this
    have hold := entry_of_parse (hcontent b (both_first hne)) hd'.parsed name
    rw [hd'.entry] at hold
    cases hl
    rw [both_put hne] at hagree
    have hnew := (agrees_content (l := op.main) hinv'.ordered hagree).2.1 _ (both_first hne)
    have hnone := entry_of_parse hnew (parseDir_toStr ((parseDir_wf hd'.parsed).erase name)) name
    rw [dir_getElem_erase, if_pos rfl] at hnone
    intro q n hqfile hi
    rcases entered (enters_moves hinv hdirs hm hqfile n) hi with
      h1 | ⟨B,op',b',k',he',hrunB,hdB,-,hf,-⟩ | ⟨-,-,-,rfl⟩
    · obtain ⟨rfl,rfl⟩ := h.unique q op.main n name f hqfile hq h1 hold
      rw [hnone] at hi
      cases hi
    · cases he.symm.trans he'
      cases hd.symm.trans hdB
      apply fresh_makes hf
      rw [hd'.unlinks]
      rfl
    · have := hd'.file
      simp [isfile] at this

theorem dropped_moves (hinv : s.Inv κ) (hinv' : s'.Inv κ') (hdirs : s.Dirs) (h : s.Inums κ)
    (hm : s.Moves κ s' κ' e) (hs : s.Steps e s')
    (hback : ∀ A, (s'.sys.client A).aborted = false → (s.sys.client A).aborted = false)
    (A : ℕ) (op : Op) (r' : Prog) (f : ℕ) (hrun' : (s'.sys.client A).aborted = false)
    (hd' : s'.doing A = some (op, r')) (hrem' : op.Removing f r' (κ' A))
    (hput' : ∀ l buf k, r' ≠ .put l buf k)
    (howner' : (s'.sys.lockTable.info f).owner = some A) : s'.Unnamed f := by
  have h2 : f ≠ 2 := by
    rintro rfl
    have := removing_isfile hrem'
    simp [isfile] at this
  have hnotacquire : ∀ {r K k}, op.Removing f r K → r ≠ .acquire f k := by
    rintro r K k hrem rfl
    cases hrem
  rcases moves_back hm hd' with ⟨hd,hκ,hleave⟩ | ⟨rfl,-⟩ | ⟨r,a,he,hrun,hd,hpath,hr,hl,hagree⟩
  · rw [hκ] at hrem'
    have hrun := hback A hrun'
    have howner := owner_back hinv hs hrun hd (fun k => hnotacquire hrem') howner'
    have hun := h.dropped A op r' f hrun hd hrem' hput' howner
    by_cases hact : e.actor = some A
    · intro q name hq hi
      rw [entry_left hdirs hq (hleave hact q)] at hi
      exact hun q name hq hi
    · refine unnamed_stays hinv hdirs hm hun h2 ?_
      intro B op' r he hB hdB _ hfB
      have hownerB := (fresh_owner hinv hB hdB hfB).1
      cases howner.symm.trans hownerB
      exact hact he
  · have := removing_removes hrem'
    rw [prog_removes] at this
    cases this
  · rcases removing_back (path_stands hpath) hr hl hrem' with hrem | ⟨⟨name,hop⟩,k,rfl⟩
    · by_cases hput : ∃ l buf k, r = .put l buf k
      · obtain ⟨l,buf,k,rfl⟩ := hput
        cases step_steps hr with
        | put res =>
          cases res with
          | error err => cases hl
          | ok => exact erased_unnamed hinv hinv' hdirs h hm he hrun hd hrem hl hagree
      · have howner := owner_back hinv hs hrun hd (fun k => hnotacquire hrem) howner'
        have hun := h.dropped A op r f hrun hd hrem (fun l b k hr => hput ⟨l, b, k, hr⟩) howner
        refine unnamed_stays hinv hdirs hm hun h2 ?_
        rintro B op' r₀ he' hB hdB ⟨buf,k,rfl⟩ -
        cases he.symm.trans he'
        cases hd.symm.trans hdB
        exact hput ⟨_, buf, k, rfl⟩
    · cases step_steps hr with
      | acquire res =>
        generalize hK : κ' A = K' at hl hrem'
        cases hl
        obtain ⟨l,buf,k',hput⟩ := locked_put (path_stands hpath) hop hrem'
        exact absurd hput (hput' l buf k')

theorem inums_moves (hinv : s.Inv κ) (hinv' : s'.Inv κ') (hdirs : s.Dirs) (hroot : s.Rooted κ)
    (hroot' : s'.Rooted κ') (h : s.Inums κ) (hm : s.Moves κ s' κ' e) (hs : s.Steps e s') :
    s'.Inums κ' where
  unique := unique_moves hinv hdirs hroot h hm
  reserved := reserved_moves hinv hdirs h hm
  kept := entry_kept hinv hdirs h hm hs
  tmp := mounting_moves hinv hinv' hroot h hm hs
  fresh := fresh_moves hinv hinv' hdirs hroot hroot' h hm hs (running_back hs)
  dropped := dropped_moves hinv hinv' hdirs h hm hs (running_back hs)

theorem inums_init : Fs.init.Inums (fun _ _ => none) := by
  have hentry : ∀ q name, Fs.init.entry q name = none := by
    intro q name
    apply entry_of_none
    simp [Fs.init, Sys.content, LockTable.info]
  have hdoing : ∀ A, Fs.init.doing A = none := by
    intro A
    simp [Fs.init, Fs.doing, Fs.task]
  refine ⟨?_, ?_, ?_, ?_, ?_, ?_⟩
  · intro q q' name name' i _ _ hi
    rw [hentry] at hi
    cases hi
  · intro q name i _ hi
    rw [hentry] at hi
    cases hi
  · intro q name i _ hi
    rw [hentry] at hi
    cases hi
  · intro h
    exact absurd (by simp [Fs.init, Sys.content, LockTable.info]) h
  · intro A op p i _ hd
    rw [hdoing] at hd
    cases hd
  · intro A op p f _ hd
    rw [hdoing] at hd
    cases hd

theorem inums_run {es : List FsEvent} (hc : PlainRun es) (hrun : Fs.run es = some s) :
    ∃ κ, s.Inv κ ∧ s.Inums κ := by
  obtain ⟨κ,hinv,-,-,h⟩ := moves_run (I := fun s κ => s.Dirs ∧ s.Rooted κ ∧ s.Inums κ)
    ⟨dirs_init, rooted_init, inums_init⟩
    (fun _ _ _ _ _ hinv h hCe hinv' hm hs => by
      obtain ⟨hdirs,hroot,h⟩ := h
      have hroot' := rooted_moves hinv hroot hm (running_back hs)
      exact ⟨dirs_moves hdirs hCe hm, hroot', inums_moves hinv hinv' hdirs hroot hroot' h hm hs⟩)
    hc hrun
  exact ⟨κ, hinv, h⟩

/-- No two entries have the same number, and only the first entry for `tmp` has a reserved one. -/
theorem inums_unique {es : List FsEvent} (hc : PlainRun es) (hrun : Fs.run es = some s) :
    (∀ q q' name name' i, isfile q = false → isfile q' = false → s.entry q name = some i →
      s.entry q' name' = some i → q = q' ∧ name = name') ∧
    ∀ q name i, isfile q = false → s.entry q name = some i → i = 1 ∨ i = 2 →
      i = 2 ∧ q = 1 ∧ name = tmpName := by
  obtain ⟨κ,-,h⟩ := inums_run hc hrun
  refine ⟨h.unique, ?_⟩
  intro q name i hq hi h12
  obtain ⟨h1,h2⟩ := h.reserved q name i hq hi
  obtain rfl | rfl := h12
  · exact absurd rfl h1
  · exact ⟨rfl, h2 rfl⟩

/-- Two clients make a file each; the second one draws the first one's number before its own. -/
def twoCreates : List FsEvent :=
  mounts 0 ++ creates 0 [97] 5 ++ [.start 1 (.create 1 [98])] ++ wrests 1 1 ++
    [.call 1, .inner (.client 1 0 .loadAttr), .draw 1 0 5] ++ wrests 1 0x80000005 ++
    [.call 1, .inner (.client 1 0 .loadAttr)] ++ frees 1 ++ [.draw 1 0 6] ++ takes 1 ++
    [.call 1, .call 1, .call 1, .call 1]

theorem inums_unique_two : ∃ s, Fs.run twoCreates = some s ∧ s.entry 1 [97] = some 0x80000005 ∧
    s.entry 1 [98] = some 0x80000006 ∧ s.entry 1 tmpName = some 2 ∧
    ∀ name, s.entry 1 name = some 0x80000005 → name = [97] := by
  obtain ⟨s,hrun,ha,hb,htmp⟩ := TraceSystem.reaches_of_any Fs.step
    (fun s => s.entry 1 [97] = some 0x80000005 ∧ s.entry 1 [98] = some 0x80000006 ∧
      s.entry 1 tmpName = some 2) Fs.init twoCreates (by decide +kernel)
  have hplain : PlainRun twoCreates := TraceSystem.Meets.of_labels (by decide +kernel) Fs.init
  refine ⟨s, hrun, ha, hb, htmp, ?_⟩
  intro name hname
  exact ((inums_unique hplain hrun).1 1 1 name [97] _ (by decide) (by decide) hname ha).2

end

end DisconnectedYfs.YFS
