import DisconnectedYfs.YFSDirectoryRuns

/-! Names: what `create` and `mkdir` enter is what `lookup` finds. -/
namespace DisconnectedYfs.YFS
open Std

/-- The number that a directory has for a name, reading its contents as they are now. -/
def Fs.entry (s : Fs) (p : ℕ) (name : Str) : Option ℕ :=
  ((s.sys.content p).bind parseDir).bind (fun d => d[name]?)

/-- Nothing is left of the operation but to give back its directory's lock and to return `r`. -/
def Fs.returning (s : Fs) (A : ℕ) (op : Op) (r : Except YErr Out) : Prop :=
  (s.sys.client A).aborted = false ∧ s.task A = some ⟨op, .release op.main (.ret r), false⟩

/-- What the names have to do, in a run that has come to `s`. No operation fails to parse its
directory. When `create` or `mkdir` is about to return `i`, the directory has `i` under the name,
and when `lookup` is about to return, it returns what the directory has. No step changes any other
entry of a directory than that of the name for which `create`, `mkdir` or `unlink` was called. So a
`lookup` after a `create` that returned `i` returns `i`, unless someone unlinks the name. -/
structure NamesWork (es : List FsEvent) (s : Fs) : Prop where
  parses : ∀ A op, (s.sys.client A).aborted = false → s.doing A ≠ some (op, .throw)
  made : ∀ A op p name i, op = .create p name ∨ op = .mkdir p name →
    s.returning A op (.ok (.inum i)) → s.entry p name = some i
  looked : ∀ A p name r, s.returning A (.lookup p name) r →
    r = match s.entry p name with
      | some i => .ok (.inum i)
      | none => .error .noent
  changes : ∀ e s' p name, s.step e = some s' → isfile p = false →
    s'.entry p name ≠ s.entry p name →
    ∃ A op q, e.actor = some A ∧ s.doing A = some (op, q) ∧
      ((op = .create p name ∨ op = .mkdir p name) ∧ s.entry p name = none ∨
        op = .unlink p name ∧ s'.entry p name = none ∨ op = .mount ∧ s.sys.content p = none)
  found : ∀ fs gs t A B op p name i r, es = fs ++ gs → Fs.run fs = some t →
    (op = .create p name ∨ op = .mkdir p name) → t.returning A op (.ok (.inum i)) →
    (∀ C q, t.doing C ≠ some (.unlink p name, q)) → (∀ C, .start C (.unlink p name) ∉ gs) →
    s.returning B (.lookup p name) r → r = .ok (.inum i)

section
variable {s s' : Fs} {κ κ' : ℕ → Knowledge} {e : FsEvent} {A l p : ℕ} {op : Op} {K : Knowledge}
  {b buf name : Str} {d : Dir}

theorem entry_of_parse (hc : s.sys.content p = some b) (hd : parseDir b = some d) (name : Str) :
    s.entry p name = d[name]? := by
  simp [Fs.entry, hc, hd]

theorem entry_of_none (hc : s.sys.content p = none) (name : Str) : s.entry p name = none := by
  simp [Fs.entry, hc]

theorem entry_congr (hc : s'.sys.content p = s.sys.content p) (name : Str) :
    s'.entry p name = s.entry p name := by
  simp [Fs.entry, hc]

theorem entry_left (h : s.Dirs) (hp : isfile p = false) (hl : s.Leaves s' p) (name : Str) :
    s'.entry p name = s.entry p name := by
  obtain hsame | ⟨⟨B,hB⟩,-⟩ := hl
  · exact entry_congr hsame name
  · exact absurd hB (h.kept p hp B)

theorem names_parse (hinv : s.Inv κ) (h : s.Dirs) (hrun : (s.sys.client A).aborted = false) :
    s.doing A ≠ some (op, .throw) := by
  intro hd
  have hst := path_stands (running_path hinv hrun hd)
  have hknown := known (l := op.main) hinv hrun hd (by simp)
  generalize κ A = K at hst hknown
  cases hst with
  | @threw b hop hb =>
    have hfile : isfile op.main = false := by
      have := (h.ops A op _ hd).1
      cases op <;> simp_all [Op.inDir, Op.typed, Op.main]
    obtain ⟨d,-,-,hparse⟩ := h.parse hfile (hknown.2.1 b only_self)
    rw [hb] at hparse
    cases hparse

/-- What an operation knows of its directory when it is about to return. -/
theorem returning_known {r : Except YErr Out} (hinv : s.Inv κ) (h : s.returning A op r) :
    ∃ w, op.Returns w r ∧ (∀ b, w = .content b → s.sys.content op.main = some b) ∧
      (w = .absent → s.sys.content op.main = none) := by
  obtain ⟨hrun,htask⟩ := h
  obtain ⟨hpath,-,ha,-⟩ := standing_ready (hinv.standing A) hrun htask
  obtain ⟨w,-,hK,hr⟩ := stands_last (path_stands hpath)
  have hcontent := (agrees_content (l := op.main) hinv.ordered ha).2
  rw [hK, only_self] at hcontent
  exact ⟨w, hr, fun b hb => hcontent.1 b (by rw [hb]), fun hb => hcontent.2 (by rw [hb])⟩

theorem names_made {i : ℕ} (hinv : s.Inv κ) (h : s.Dirs)
    (hop : op = .create p name ∨ op = .mkdir p name)
    (hr : s.returning A op (.ok (.inum i))) : s.entry p name = some i := by
  have hmain : op.main = p := by obtain rfl | rfl := hop <;> rfl
  obtain ⟨w,hret,hcontent,-⟩ := returning_known hinv hr
  cases hret with
  | @made name' mask buf b d _ hm hd hn hi =>
    have hmaking : op.Making name' mask buf b d := ⟨hm, hd, hn⟩
    have hname : name' = name := by
      obtain rfl | rfl := hop <;> simp [Op.makes] at hm <;> exact hm.1.symm
    subst hname
    have hops := h.ops A op _ (doing_eq hr.2)
    have hwf := hmaking.linked_wf hops.2 hi
    rw [hmain] at hcontent
    rw [entry_of_parse (hcontent _ rfl) (parseDir_toStr hwf), dir_getElem_insert, if_pos rfl]
  | reads h =>
    cases h with
    | lookup => obtain h | h := hop <;> cases h

theorem names_looked {r : Except YErr Out} (hinv : s.Inv κ)
    (hr : s.returning A (.lookup p name) r) :
    r = match s.entry p name with
      | some i => .ok (.inum i)
      | none => .error .noent := by
  obtain ⟨w,hret,hcontent,habsent⟩ := returning_known hinv hr
  cases hret with
  | reads h =>
    cases h with
    | noent => rw [entry_of_none (p := p) (habsent rfl)]
    | lookupNone hd hn => rw [entry_of_parse (p := p) (hcontent _ rfl) hd, hn]
    | lookup hd hn => rw [entry_of_parse (p := p) (hcontent _ rfl) hd, hn]
    | exist hm => cases hm
  | mounted h => cases h
  | made hm => cases hm
  | rewrote hb => cases hb

/-- What a put by an operation under way does to an entry of a directory. -/
inductive Fs.PutsEntry (s s' : Fs) (op : Op) (name : Str) : ℕ → Prog → Knowledge → Prop
  | same {q r K} (h : s'.entry q name = s.entry q name) : PutsEntry s s' op name q r K
  | linked {mask buf b d i k} (hm : op.Making name mask buf b d) (hi : Drawn mask i)
      (hne : i ≠ op.main) (hold : s.entry op.main name = none)
      (hnew : s'.entry op.main name = some i) :
      PutsEntry s s' op name op.main (.put op.main (Dir.toStr (d.insert name i)) k)
        (.both op.main (.content b) i (.content buf))
  | erased {q r K} (hop : op = .unlink q name) (hnew : s'.entry q name = none) :
      PutsEntry s s' op name q r K
  | root {r K} (hop : op = .mount) (hnone : s.sys.content 1 = none)
      (hnew : s'.entry 1 name = rootDir[name]?) : PutsEntry s s' op name 1 r K
  | tmp {r K} (hop : op = .mount) (hK : K 2 = some .unread) (hnew : s'.entry 2 name = none) :
      PutsEntry s s' op name 2 r K

theorem put_entry {k : Except ExtErr Unit → Prog} (hinv : s.Inv κ) (h : s.Dirs)
    (hp : isfile p = false) (hrun : (s.sys.client A).aborted = false)
    (hd : s.doing A = some (op, .put p buf k)) (hbuf : s'.sys.content p = some buf) (name : Str) :
    s.PutsEntry s' op name p (.put p buf k) (κ A) := by
  have hst := path_stands (running_path hinv hrun hd)
  have hcontent := (known (l := p) hinv hrun hd (by simp)).2
  have hops := h.ops A op _ hd
  generalize κ A = K at hst hcontent
  generalize hr : Prog.put p buf k = r at hst
  cases hst <;> cases hr
  case rewrite hb _ =>
    have hfile : isfile op.main = true := by
      cases op <;> simp_all [Op.rewrites, Op.typed, Op.main]
    rw [hp] at hfile
    cases hfile
  case fill hi hne hm =>
    -- a new directory is as empty as one that does not exist
    obtain ⟨rfl,rfl⟩ | ⟨rfl,rfl⟩ := hm.mask
    · apply Fs.PutsEntry.same
      rw [entry_of_parse hbuf (show parseDir [58] = some ∅ from rfl),
        entry_of_none (hcontent.2 both_self)]
      simp
    · rw [drawn_file hi] at hp
      cases hp
  case link name' mask _ b d i hm hi hne =>
    have hold := entry_of_parse (hcontent.1 b (both_first hne)) hm.parsed name
    have hnew := entry_of_parse hbuf (parseDir_toStr (hm.linked_wf hops.2 hi)) name
    rw [dir_getElem_insert] at hnew
    by_cases hname : name' = name
    · subst hname
      rw [if_pos rfl] at hnew
      exact .linked hm hi hne (hold.trans hm.unused) hnew
    · rw [if_neg hname] at hnew
      exact .same (hnew.trans hold.symm)
  case erase name' b d f _ hd' hne _ _ =>
    have hold := entry_of_parse (hcontent.1 b (both_first hne)) hd'.parsed name
    have hnew := entry_of_parse hbuf (parseDir_toStr ((parseDir_wf hd'.parsed).erase name')) name
    rw [dir_getElem_erase] at hnew
    by_cases hname : name' = name
    · subst hname
      rw [if_pos rfl] at hnew
      exact .erased hd'.unlinks hnew
    · rw [if_neg hname] at hnew
      exact .same (hnew.trans hold.symm)
  case putRoot hop =>
    rw [rootStr_eq] at hbuf
    exact .root hop (hcontent.2 (both_first (by simp)))
      (entry_of_parse hbuf (parseDir_toStr rootDir_wf) name)
  case putTmp hop =>
    apply Fs.PutsEntry.tmp hop both_self
    rw [entry_of_parse hbuf (show parseDir [58] = some ∅ from rfl)]
    simp

/-- A put by an operation under way changes its own entry only. -/
theorem put_changes {k : Except ExtErr Unit → Prog} (hinv : s.Inv κ) (h : s.Dirs)
    (hroot : s.Rooted κ)
    (hp : isfile p = false) (hrun : (s.sys.client A).aborted = false)
    (hd : s.doing A = some (op, .put p buf k)) (hbuf : s'.sys.content p = some buf)
    (hne : s'.entry p name ≠ s.entry p name) :
    (op = .create p name ∨ op = .mkdir p name) ∧ s.entry p name = none ∨
      op = .unlink p name ∧ s'.entry p name = none ∨ op = .mount ∧ s.sys.content p = none := by
  have hput := put_entry hinv h hp hrun hd hbuf name
  have htmp := hroot.tmp A (.put p buf k) hrun
  generalize κ A = K at hput htmp
  generalize hr : Prog.put p buf k = r at hput hd htmp
  cases hput with
  | same h => exact absurd h hne
  | linked hm hi hne' hold hnew =>
    refine Or.inl ⟨?_, hold⟩
    have := hm.makes
    cases op <;> simp_all [Op.makes, Op.main]
  | erased hop hnew => exact Or.inr (Or.inl ⟨hop, hnew⟩)
  | root hop hnone => exact Or.inr (Or.inr ⟨hop, hnone⟩)
  | tmp hop hK =>
    subst hop
    exact Or.inr (Or.inr ⟨rfl, htmp hd hK⟩)

theorem names_changes (hinv : s.Inv κ) (h : s.Dirs) (hroot : s.Rooted κ)
    (hstep : s.step e = some s') (hp : isfile p = false) (hne : s'.entry p name ≠ s.entry p name) :
    ∃ A op q, e.actor = some A ∧ s.doing A = some (op, q) ∧
      ((op = .create p name ∨ op = .mkdir p name) ∧ s.entry p name = none ∨
        op = .unlink p name ∧ s'.entry p name = none ∨ op = .mount ∧ s.sys.content p = none) := by
  obtain ⟨κ',-,hm⟩ := moves_step hinv hstep
  have hleave : ¬ s.Leaves s' p := fun hleave => hne (entry_left h hp hleave name)
  cases hm with
  | start _ _ _ hsys | finish _ _ _ hsys => exact absurd (Or.inl (by rw [hsys])) hleave
  | quiet _ _ hcontent => exact absurd (hcontent p) hleave
  | @act A op q q' a K' _ he hrun hs hpath hq _ _ _ _ _ hcontent _ =>
    refine ⟨A, op, q, he, hs, ?_⟩
    rcases hcontent p with h1 | ⟨buf,rfl,hbuf⟩ | ⟨rfl,-⟩
    · exact absurd h1 hleave
    · cases step_steps hq
      exact put_changes hinv h hroot hp hrun hs hbuf hne
    · cases step_steps hq
      rw [remove_file (path_stands hpath)] at hp
      cases hp

/-- An entry stays as long as nobody unlinks the name. -/
theorem entry_stays {fs gs : List FsEvent} {t : Fs} {i : ℕ} (hc : PlainRun (fs ++ gs))
    (ht : Fs.run fs = some t) (hp : isfile p = false) (hi : t.entry p name = some i)
    (hno : ∀ C q, t.doing C ≠ some (.unlink p name, q)) (hgs : ∀ C, .start C (.unlink p name) ∉ gs)
    (hrun : Fs.run (fs ++ gs) = some s) :
    s.entry p name = some i ∧ ∀ C q, s.doing C ≠ some (.unlink p name, q) := by
  induction gs using List.reverseRecOn generalizing s with
  | nil =>
    rw [List.append_nil, ht] at hrun
    cases hrun
    exact ⟨hi, hno⟩
  | append_singleton gs e ih =>
    rw [← List.append_assoc] at hc hrun
    obtain ⟨r,hr,hstep⟩ := TraceSystem.run_snoc.mp hrun
    obtain ⟨hentry,hdoing⟩ := ih hc.append.1 (fun C hC => hgs C (List.mem_append_left _ hC)) hr
    obtain ⟨κ,hinv,hdirs,hroot⟩ := dirs_run hc.append.1 hr
    constructor
    · by_contra hne
      rw [← hentry] at hne
      obtain ⟨A,op,q,-,hd,⟨-,hnone⟩ | ⟨rfl,-⟩ | ⟨-,hnone⟩⟩ :=
        names_changes hinv hdirs hroot hstep hp hne
      · rw [hentry] at hnone
        cases hnone
      · exact hdoing A q hd
      · rw [entry_of_none hnone] at hentry
        cases hentry
    · obtain ⟨κ',-,hm⟩ := moves_step hinv hstep
      intro C q hd
      refine doing_moves (P := fun op => op ≠ .unlink p name) hm ?_ ?_ C _ q hd rfl
      · rintro A op q' hA rfl
        exact hdoing A q' hA
      · rintro A op rfl rfl
        exact hgs A (by simp)

/-- Names without separators work, whatever the clients do with them. -/
theorem names_work {es : List FsEvent} (hc : PlainRun es) (hrun : Fs.run es = some s) :
    NamesWork es s := by
  obtain ⟨κ,hinv,hdirs,hroot⟩ := dirs_run hc hrun
  refine ⟨fun A op hA => names_parse hinv hdirs hA,
    fun A op p name i hop => names_made hinv hdirs hop, fun A p name r => names_looked hinv,
    fun e s' p name => names_changes hinv hdirs hroot, ?_⟩
  rintro fs gs t A B op p name i r rfl ht hop hA hno hgs hB
  obtain ⟨κt,hinvt,hdirst,-⟩ := dirs_run hc.append.1 ht
  have hp : isfile p = false := by
    have := (hdirst.ops A op _ (doing_eq hA.2)).1
    obtain rfl | rfl := hop <;> simpa [Op.typed] using this
  have hentry := entry_stays hc ht hp (names_made hinvt hdirst hop hA) hno hgs hrun
  rw [names_looked hinv hB, hentry.1]

/-- The operations that the kernel can ask for: a name is not empty and has neither a slash nor a
zero byte. -/
def Op.fromKernel (op : Op) : Bool :=
  op.typed &&
    match op with
    | .create _ name | .mkdir _ name | .unlink _ name | .lookup _ name =>
      name ≠ [] && !name.contains 47 && !name.contains 0
    | _ => true

/-- A file `a:b` is made in the root directory and looked up. -/
def colonName : List FsEvent :=
  mounts 0 ++ creates 0 [97, 58, 98] 5 ++ [.start 0 (.lookup 1 [97, 58, 98])] ++
    retakes 0 ++ [.call 0]

/-- The operation has thrown. -/
def Prog.thrown : Prog → Bool
  | .throw => true
  | _ => false

theorem colon_breaks : (∀ e ∈ colonName, e.starts Op.fromKernel = true) ∧
    ∃ s, Fs.run colonName = some s ∧ ¬ NamesWork colonName s := by
  refine ⟨by decide +kernel, ?_⟩
  obtain ⟨s,hrun,hab,hthrow⟩ := TraceSystem.reaches_of_any Fs.step
    (fun s => (s.sys.client 0).aborted = false ∧ (s.doing 0).any (fun x => x.2.thrown) = true)
    Fs.init colonName (by decide +kernel)
  refine ⟨s, hrun, fun h => ?_⟩
  obtain ⟨⟨op,p⟩,hd,hp⟩ := (Option.any_eq_true _ _).mp hthrow
  cases p with
  | throw => exact h.parses 0 op hab hd
  | _ => cases hp

/-- The same with the name `ab`. -/
def plainName : List FsEvent :=
  mounts 0 ++ creates 0 [97, 98] 5 ++ [.start 0 (.lookup 1 [97, 98])] ++ retakes 0 ++ [.call 0]

theorem plain_works : ∃ s, Fs.run plainName = some s ∧ NamesWork plainName s ∧
    s.entry 1 [97, 98] = some 0x80000005 := by
  obtain ⟨s,hrun,hentry⟩ := TraceSystem.reaches_of_any Fs.step
    (fun s => s.entry 1 [97, 98] = some 0x80000005) Fs.init plainName (by decide +kernel)
  exact ⟨s, hrun, names_work (TraceSystem.Meets.of_labels (by decide +kernel) Fs.init) hrun, hentry⟩

end

end DisconnectedYfs.YFS
