import DisconnectedYfs.YFSUnlinkStages
import DisconnectedYfs.PaddedArray
import Mathlib.Data.UInt

/-! The contents of a file are those of an array of bytes on which the operations act one after
another, in the order in which their results are settled. -/
namespace DisconnectedYfs.YFS
open Std

/-- The operations on the contents of a file. -/
def Op.onContents : Op → Bool
  | .getfile _ | .setattr _ _ | .read _ _ _ | .write _ _ _ _ => true
  | _ => false

/-- What these operations do to an array of bytes, and what they return. -/
inductive ArrayStep (b : Str) : Op → Except YErr Out → Str → Prop
  | getfile {ino fin} (h : fin.size = b.length) : ArrayStep b (.getfile ino) (.ok (.file fin)) b
  | read {ino off size} :
      ArrayStep b (.read ino off size) (.ok (.data (PaddedArray.read b off.toNat size.toNat))) b
  | setattr {ino newSize} :
      ArrayStep b (.setattr ino newSize) (.ok .done) (PaddedArray.resize b newSize.toNat)
  | write {ino buf off size} : ArrayStep b (.write ino buf off size) (.ok .done)
      (PaddedArray.write b off.toNat (buf.take size.toNat))

/-- One operation after another. -/
inductive ArrayRun (b : Str) : List (ℕ × Op × Except YErr Out) → Str → Prop
  | nil : ArrayRun b [] b
  | snoc {log b' b'' A op r} (h : ArrayRun b log b') (hx : ArrayStep b' op r b'') :
      ArrayRun b (log ++ [(A, op, r)]) b''

section
variable {b : Str} {off size newSize : UInt32}

theorem patched_eq (data : Str) :
    YfsClient.patched b data off = PaddedArray.write b off.toNat data := by
  rw [PaddedArray.write_eq]
  have hpad : (if b.length < off.toNat then
      b.take off.toNat ++ List.replicate (off.toNat-b.length) 0 else b.take off.toNat) =
      b.take off.toNat ++ List.replicate (off.toNat-b.length) (0 : UInt8) := by
    split_ifs with h
    · rfl
    · rw [Nat.sub_eq_zero_of_le (by omega)]
      simp
  have hfront : (b.take off.toNat ++ List.replicate (off.toNat-b.length) (0 : UInt8)).length =
      off.toNat := by
    simp
    omega
  unfold YfsClient.patched
  simp only [hpad]
  rw [List.length_append, hfront]
  split_ifs with h
  · rfl
  · rw [List.drop_eq_nil_of_le (by omega), List.append_nil]

theorem slice_eq : YfsClient.slice b off size = PaddedArray.read b off.toNat size.toNat := by
  rw [PaddedArray.read_eq]
  unfold YfsClient.slice
  split_ifs with h
  · rfl
  · rw [List.drop_eq_nil_of_le (by omega), List.take_nil]

theorem byteSize_toNat (h : b.length < 2^32) : (byteSize b).toNat = b.length := by
  simp only [byteSize, UInt32.toNat_ofNat']
  exact Nat.mod_eq_of_lt h

/-- `setattr` trusts the size that it is told. -/
theorem resized_eq (h : b.length < 2^32) :
    (YfsClient.resized b (byteSize b).toNat newSize).getD b =
      PaddedArray.resize b newSize.toNat := by
  rw [PaddedArray.resize_eq, byteSize_toNat h]
  unfold YfsClient.resized
  dsimp only
  rw [Nat.mod_eq_of_lt h]
  split_ifs with h0 hlt hgt
  · simp [h0]
  · rw [Nat.sub_eq_zero_of_le (by omega)]
    simp
  · rw [List.take_of_length_le (by omega)]
    rfl
  · rw [Nat.sub_eq_zero_of_le (by omega), List.take_of_length_le (by omega)]
    simp

end

/-- The operation whose result is settled by a step, with its client and the result. -/
def Fs.settled (s : Fs) (e : FsEvent) (s' : Fs) : Option (ℕ × Op × Except YErr Out) :=
  e.actor.bind (fun A => (s.doing A).bind (fun x => (s'.doing A).bind (fun y =>
    if x.2.result.isNone then y.2.result.map (fun r => (A, y.1, r)) else none)))

/-- The operations on `f`, in the order in which their results are settled. -/
def Fs.history (f : ℕ) (s : Fs) (es : List FsEvent) : List (ℕ × Op × Except YErr Out) :=
  TraceSystem.observed Fs.step (fun s e s' log =>
    log ++ ((s.settled e s').filter (fun x => x.2.1.main == f)).toList) s [] es

/-- The file exists: it has contents, nobody is unlinking it, and no lock of an earlier `unlink`
is left with which it will go. The operations under way on it are those on its contents. -/
structure Fs.Existing (s : Fs) (f : ℕ) (b : Str) : Prop where
  file : isfile f = true
  content : s.sys.content f = some b
  kept : ∀ B, ¬ s.sys.DoomedBy f B
  ops : ∀ A op p, s.doing A = some (op, p) → op.main = f → op.onContents = true
  linked : ∀ A op p, s.doing A = some (op, p) → p.removes ≠ some f

/-- Only the operations on contents are started on `f`, no `unlink` has found it, and it has not
outgrown its size field. -/
def ContentsOnly (f : ℕ) (s : Fs) (e : FsEvent) : Prop :=
  (∀ A op, e = .start A op → op.main = f → op.onContents = true) ∧
    (∀ A p name k, s.doing A ≠ some (.unlink p name, .acquire f k)) ∧
    ∀ b, s.sys.content f = some b → b.length < 2^32

section
variable {op : Op} {p p' : Prog} {K K' : Knowledge} {a : Act} {r : Except YErr Out} {b b' : Str}

/-- What is settled stays. -/
theorem result_step (hr : p.result = some r) (hp : p.step a = some p') (hl : Learns K a K') :
    p'.result = some r := by
  cases step_steps hp with
  | release => exact hr
  | remove =>
    cases hl
    exact hr
  | _ => cases hr

theorem prog_result (op : Op) : op.prog.result = none := by
  cases op <;> rfl

theorem Op.Making.not_onContents {name buf : Str} {mask : ℕ} {d : Dir}
    (h : op.Making name mask buf b d) : op.onContents = false := by
  have := h.makes
  cases op <;> simp_all [Op.makes, Op.onContents]

theorem Op.Dropping.not_onContents {name : Str} {d : Dir} {f : ℕ} (h : op.Dropping name b d f) :
    op.onContents = false := by
  rw [h.unlinks]
  rfl

theorem unread_result (hst : op.Stands p K) (hop : op.onContents = true)
    (hk : K op.main = some .unread) : p.result = none := by
  cases hst with
  | enter | get | getattr | threw | rewrite => rfl
  | leave hr =>
    rw [only_self] at hk
    cases hk
    cases hr with
    | reads h => cases h
  | ret => cases hk
  | draw hm | tryInum hm | probe hm | reject hm | fill hm | rename hm | link hm | made hm =>
    rw [hm.not_onContents] at hop
    cases hop
  | find hd | erase hd | erased hd | unlocked hd | remove hd =>
    rw [hd.not_onContents] at hop
    cases hop
  | tmp hm | putRoot hm | putTmp hm | mounted hm =>
    rw [hm] at hop
    cases hop

/-- The result of an operation on contents is settled by what it reads or by its put. -/
theorem settles (hst : op.Stands p K) (hst' : op.Stands p' K') (hop : op.onContents = true)
    (hp : p.step a = some p') (hl : Learns K a K') (h : p.result = none) (h' : p'.result = some r) :
    (∃ w, K' op.main = some w ∧ op.Reads w r ∧ ∀ l buf, a ≠ .put l buf (.ok ())) ∨
      ∃ b b', K op.main = some (.content b) ∧ op.rewrites b = some b' ∧
        a = .put op.main b' (.ok ()) ∧ r = .ok .done := by
  cases hst with
  | enter =>
    cases step_steps hp
    cases hl
    rw [unread_result hst' hop (Function.update_self _ _ _)] at h'
    cases h'
  | get hk hn =>
    left
    cases step_steps hp
    cases hl with
    | get => exact ⟨_, Function.update_self _ _ _, hk _ _ h', by simp⟩
    | getNone => exact ⟨_, Function.update_self _ _ _, hn _ h', by simp⟩
  | getattr hk hn =>
    left
    cases step_steps hp
    cases hl with
    | getattr _ hs => exact ⟨_, Function.update_self _ _ _, hk _ _ _ hs h', by simp⟩
    | getattrNone => exact ⟨_, Function.update_self _ _ _, hn _ h', by simp⟩
  | threw | ret => cases hp
  | leave => cases h
  | rewrite hb hk =>
    right
    cases step_steps hp
    cases hl
    rw [hk] at h'
    cases h'
    exact ⟨_, _, only_self, hb, rfl, rfl⟩
  | draw hm | tryInum hm | probe hm | reject hm | fill hm | rename hm | link hm | made hm =>
    rw [hm.not_onContents] at hop
    cases hop
  | find hd | erase hd | erased hd | unlocked hd | remove hd =>
    rw [hd.not_onContents] at hop
    cases hop
  | tmp hm | putRoot hm | putTmp hm | mounted hm =>
    rw [hm] at hop
    cases hop

theorem reads_array (hop : op.onContents = true) (hb : b.length < 2^32)
    (h : op.Reads (.content b) r) : ArrayStep b op r b := by
  cases h with
  | getfile ha =>
    refine .getfile ?_
    simp only [YfsClient.fileinfo, ha]
    exact byteSize_toNat hb
  | @setattr ino newSize _ hn =>
    have hsame : PaddedArray.resize b newSize.toNat = b := by
      rw [← resized_eq hb, show YfsClient.resized b (byteSize b).toNat newSize = none from hn]
      rfl
    have hstep : ArrayStep b (.setattr ino newSize) (.ok .done) _ := .setattr
    rw [hsame] at hstep
    exact hstep
  | read =>
    rw [slice_eq]
    exact .read
  | exist hm =>
    cases op <;> simp_all [Op.makes, Op.onContents]
  | mount | getdir | unlinkNone | unlinkDir | lookupNone | lookup | contents => cases hop

theorem rewrites_array (hb : b.length < 2^32) (h : op.rewrites b = some b') :
    ArrayStep b op (.ok .done) b' := by
  cases op with
  | setattr ino newSize =>
    have hnew : PaddedArray.resize b newSize.toNat = b' := by
      rw [← resized_eq hb, show YfsClient.resized b (byteSize b).toNat newSize = some b' from h]
      rfl
    rw [← hnew]
    exact .setattr
  | write ino buf off size =>
    have hnew : YfsClient.patched b (buf.take size.toNat) off = b' := Option.some.inj h
    rw [← hnew, patched_eq]
    exact .write
  | _ => cases h

end

/-- The same as `Existing`, with what the operations know. -/
structure Fs.Keeps (s : Fs) (κ : ℕ → Knowledge) (f : ℕ) (b : Str) : Prop where
  file : isfile f = true
  content : s.sys.content f = some b
  kept : ∀ B, ¬ s.sys.DoomedBy f B
  ops : ∀ A op p, s.doing A = some (op, p) → op.main = f → op.onContents = true
  linked : ∀ A op p, (s.sys.client A).aborted = false → s.doing A = some (op, p) →
    ¬ op.Removing f p (κ A)

section
variable {s s' : Fs} {κ κ' : ℕ → Knowledge} {e : FsEvent} {A f : ℕ} {b : Str} {op : Op}

theorem Fs.Existing.keeps (h : s.Existing f b) : s.Keeps κ f b :=
  ⟨h.file, h.content, h.kept, h.ops,
    fun A op p _ hd hr => h.linked A op p hd (removing_removes hr)⟩

/-- A put that reaches the file is that of an operation on it. -/
theorem put_contents {k : Except ExtErr Unit → Prog} {buf : Str} {K : Knowledge}
    (hf : isfile f = true) (hops : op.main = f → op.onContents = true)
    (habsent : K f ≠ some .absent) (hst : op.Stands (.put f buf k) K) :
    op.main = f ∧ (∃ b₀, K f = some (.content b₀) ∧ op.rewrites b₀ = some buf) ∧
      (k (.ok ())).result = some (.ok .done) := by
  generalize hp : Prog.put f buf k = p at hst
  cases hst <;> cases hp
  case rewrite hb hk => exact ⟨rfl, ⟨_, only_self, hb⟩, by simp [hk, Prog.result]⟩
  case fill => exact absurd both_self habsent
  case link hm _ _ =>
    have := hops rfl
    rw [hm.not_onContents] at this
    cases this
  case erase hd _ _ _ =>
    have := hops rfl
    rw [hd.not_onContents] at this
    cases this
  case putRoot | putTmp => cases hf

theorem linked_moves (h : s.Keeps κ f b) (hC : ContentsOnly f s e) (hm : s.Moves κ s' κ' e)
    (hs : s.Steps e s') (A : ℕ) (op : Op) (p : Prog) (hrun : (s'.sys.client A).aborted = false)
    (hd : s'.doing A = some (op, p)) : ¬ op.Removing f p (κ' A) := by
  intro hr
  have hold := h.linked A op p (running_back hs A hrun)
  cases hm with
  | @start B op' _ hs' hκ =>
    rw [hs', Function.update_apply] at hd
    rw [hκ, Function.update_apply] at hr
    split_ifs at hd hr with hAB
    · cases hd
      have hrem := removing_removes hr
      have hnone : op.prog.removes = none := by cases op <;> rfl
      rw [hnone] at hrem
      cases hrem
    · exact hold hd hr
  | @act B op' q q' a K' _ _ hrunB hq hpath hstep hl hs' hκ =>
    rw [hs', Function.update_apply] at hd
    rw [hκ, Function.update_apply] at hr
    split_ifs at hd hr with hAB
    · cases hd
      obtain hback | ⟨⟨name,hop⟩,k,rfl⟩ := removing_back (path_stands hpath) hstep hl hr
      · exact h.linked B op q hrunB hq hback
      · rw [hop] at hq
        exact hC.2.1 B _ name k hq
    · exact hold hd hr
  | quiet hs' hκ =>
    rw [hs'] at hd
    rw [hκ] at hr
    exact hold hd hr
  | finish _ hs' hκ =>
    rw [hs', Function.update_apply] at hd
    split_ifs at hd
    rw [hκ] at hr
    exact hold hd hr

theorem kept_file (h : s.Keeps κ f b) (hm : s.Moves κ s' κ' e) (B : ℕ) :
    ¬ s'.sys.DoomedBy f B := by
  intro hB
  cases hm with
  | start _ _ _ hsys | finish _ _ _ hsys =>
    rw [hsys] at hB
    exact h.kept B hB
  | @act A op p p' a K' _ _ hrun hd hpath hp _ _ _ _ _ _ hdoomed =>
    obtain h1 | ⟨-,rfl | ⟨rfl,hk⟩⟩ := hdoomed f B hB
    · exact h.kept B h1
    · cases step_steps hp
      exact h.linked A op _ hrun hd (remove_removing (path_stands hpath))
    · cases step_steps hp
      exact h.linked A op _ hrun hd (release_removing (path_stands hpath) hk)
  | quiet _ _ _ hdoomed =>
    obtain h1 | ⟨hrun,op,k,hd,hpath,hk⟩ := hdoomed f B hB
    · exact h.kept B h1
    · exact h.linked B op _ hrun hd (release_removing (path_stands hpath) hk)

theorem leaves_kept (h : s.Keeps κ f b) (hl : s.Leaves s' f) : s'.sys.content f = some b := by
  obtain hsame | ⟨⟨B,hB⟩,-⟩ := hl
  · rw [hsame]
    exact h.content
  · exact absurd hB (h.kept B)

theorem settled_act {p p' : Prog} (he : e.actor = some A) (hd : s.doing A = some (op, p))
    (hd' : s'.doing A = some (op, p')) : s.settled e s' =
      if p.result.isNone then p'.result.map (fun r => (A, op, r)) else none := by
  simp [Fs.settled, he, hd, hd']

theorem settled_same (h : s'.doing = s.doing) : s.settled e s' = none := by
  unfold Fs.settled
  rw [h]
  rcases e.actor with _ | A
  · rfl
  rcases hd : s.doing A with _ | x
  · simp [hd]
  · rcases hr : x.2.result with _ | r <;> simp [hd, hr]

/-- The contents after an operation on them has settled its result. -/
theorem contents_settled {p p' : Prog} {a : Act} {K' : Knowledge} {r : Except YErr Out}
    (hinv : s.Inv κ) (hinv' : s'.Inv κ') (h : s.Keeps κ f b) (hsize : b.length < 2^32)
    (hrun : (s.sys.client A).aborted = false) (hd : s.doing A = some (op, p)) (hf : op.main = f)
    (hpath : Path op p (κ A)) (hp : p.step a = some p') (hl : Learns (κ A) a K')
    (hagree : ((s'.sys.client A).localAt s'.sys.table 0).Agrees K')
    (hcontent : s.Leaves s' f ∨ (∃ buf, a = .put f buf (.ok ()) ∧ s'.sys.content f = some buf) ∨
      a = .remove f (.ok ()))
    (hr : p.result = none) (hr' : p'.result = some r) :
    ∃ b', s'.sys.content f = some b' ∧ ArrayStep b op r b' := by
  have hop := h.ops A op p hd hf
  have hst := path_stands hpath
  have hnow := agrees_content (l := f) hinv'.ordered hagree
  subst hf
  rcases settles hst (path_stands (hpath.step hp hl)) hop hp hl hr hr' with
    ⟨w,hw,hread,hput⟩ | ⟨b₁,b',hb₁,hb',rfl,rfl⟩
  · -- nothing is put: the contents are as before, and the answer is about them
    have hc : s'.sys.content op.main = some b := by
      rcases hcontent with h1 | ⟨buf,ha,-⟩ | rfl
      · exact leaves_kept h h1
      · exact absurd ha (hput _ _)
      · cases step_steps hp
        exact absurd (remove_removing hst) (h.linked A op _ hrun hd)
    refine ⟨b, hc, ?_⟩
    cases w with
    | unread => cases hread
    | absent =>
      rw [hnow.2.2 hw] at hc
      cases hc
    | content b₁ =>
      rw [hnow.2.1 b₁ hw] at hc
      cases hc
      exact reads_array hop hsize hread
  · -- the put
    cases step_steps hp
    have hold := (known (l := op.main) hinv hrun hd (by simp)).2.1 b₁ hb₁
    rw [h.content] at hold
    cases hold
    refine ⟨b', hnow.2.1 b' ?_, rewrites_array hsize hb'⟩
    cases hl
    exact Function.update_self _ _ _

/-- A step leaves the contents alone, or is the step at which an operation on them takes effect. -/
theorem contents_moves (hinv : s.Inv κ) (hinv' : s'.Inv κ') (h : s.Keeps κ f b)
    (hC : ContentsOnly f s e) (hm : s.Moves κ s' κ' e) (hs : s.Steps e s') :
    ∃ b', s'.Keeps κ' f b' ∧ ((s.settled e s').filter (fun x => x.2.1.main == f) = none ∧ b' = b ∨
      ∃ A op r, (s.settled e s').filter (fun x => x.2.1.main == f) = some (A, op, r) ∧
        ArrayStep b op r b') := by
  have hops : ∀ A op p, s'.doing A = some (op, p) → op.main = f → op.onContents = true :=
    doing_moves hm (P := fun op => op.main = f → op.onContents = true) h.ops hC.1
  suffices hmain : ∃ b', s'.sys.content f = some b' ∧
      ((s.settled e s').filter (fun x => x.2.1.main == f) = none ∧ b' = b ∨
      ∃ A op r, (s.settled e s').filter (fun x => x.2.1.main == f) = some (A, op, r) ∧
        ArrayStep b op r b') by
    obtain ⟨b',hb',hx⟩ := hmain
    exact ⟨b', ⟨h.file, hb', kept_file h hm, hops, linked_moves h hC hm hs⟩, hx⟩
  cases hm with
  | @start B op' hnone _ _ hsys =>
    refine ⟨b, by rw [hsys]; exact h.content, Or.inl ⟨?_, rfl⟩⟩
    simp [Fs.settled, FsEvent.actor, hnone]
  | @finish B op' r hd hs' _ hsys =>
    refine ⟨b, by rw [hsys]; exact h.content, Or.inl ⟨?_, rfl⟩⟩
    simp [Fs.settled, FsEvent.actor, hs']
  | quiet hs' _ hcontent =>
    exact ⟨b, leaves_kept h (hcontent f), Or.inl ⟨by rw [settled_same hs']; rfl, rfl⟩⟩
  | @act A op p p' a K' _ he hrun hd hpath hp hl hs' _ _ hagree hcontent _ =>
    have hd' : s'.doing A = some (op, p') := by rw [hs', Function.update_self]
    have hcont : s.Leaves s' f ∨ (∃ buf, a = .put f buf (.ok ()) ∧ s'.sys.content f = some buf) ∨
        a = .remove f (.ok ()) := by
      rcases hcontent f with h1 | h1 | h1
      · exact Or.inl h1
      · exact Or.inr (Or.inl h1)
      · exact Or.inr (Or.inr h1.1)
    rw [settled_act he hd hd']
    by_cases hset : op.main = f ∧ p.result = none ∧ p'.result ≠ none
    · obtain ⟨hf,hr,hr'⟩ := hset
      obtain ⟨r,hr'⟩ := Option.ne_none_iff_exists'.mp hr'
      obtain ⟨b',hb',hstep⟩ := contents_settled hinv hinv' h
        (hC.2.2 b h.content) hrun hd hf hpath hp
        hl hagree hcont hr hr'
      exact ⟨b', hb', Or.inr ⟨A, op, r, by simp [hr, hr', hf], hstep⟩⟩
    · refine ⟨b, ?_, Or.inl ⟨?_, rfl⟩⟩
      · rcases hcont with h1 | ⟨buf,rfl,hbuf⟩ | rfl
        · exact leaves_kept h h1
        · exfalso
          cases step_steps hp with
          | @put _ _ k _ =>
            have hne : κ A f ≠ some .absent := by
              intro habs
              have hnone := (known (l := f) hinv hrun hd (by simp)).2.2 habs
              rw [h.content] at hnone
              cases hnone
            obtain ⟨hf,-,hr⟩ := put_contents h.file (h.ops A op _ hd) hne (path_stands hpath)
            exact hset ⟨hf, rfl, by simp [hr]⟩
        · cases step_steps hp
          exact absurd (remove_removing (path_stands hpath)) (h.linked A op _ hrun hd)
      · rw [Option.filter_eq_none_iff]
        intro x hx hxf
        split_ifs at hx with hr
        · obtain ⟨r,hr',rfl⟩ := Option.map_eq_some_iff.mp hx
          exact hset ⟨by simpa using hxf, by simpa using hr, by simp [hr']⟩

/-- A result that is settled was settled before, or by this step. -/
theorem settled_moves {p : Prog} {r : Except YErr Out} (hm : s.Moves κ s' κ' e)
    (hd : s'.doing A = some (op, p)) (hr : p.result = some r) :
    (∃ q, s.doing A = some (op, q) ∧ q.result = some r) ∨ s.settled e s' = some (A, op, r) := by
  cases hm with
  | @start B op' hnone hs' =>
    rw [hs', Function.update_apply] at hd
    split_ifs at hd
    · cases hd
      rw [prog_result] at hr
      cases hr
    · exact Or.inl ⟨p, hd, hr⟩
  | finish _ hs' =>
    rw [hs', Function.update_apply] at hd
    split_ifs at hd
    exact Or.inl ⟨p, hd, hr⟩
  | quiet hs' =>
    rw [hs'] at hd
    exact Or.inl ⟨p, hd, hr⟩
  | @act B op' q q' a K' _ he _ hq _ hp hl hs' =>
    by_cases hAB : A = B
    · subst hAB
      have hd' := hd
      rw [hs', Function.update_self] at hd
      cases hd
      rcases hrq : q.result with _ | r₀
      · right
        rw [settled_act he hq hd']
        simp [hrq, hr]
      · rw [result_step hrq hp hl] at hr
        exact Or.inl ⟨q, hq, hrq.trans hr⟩
    · rw [hs', Function.update_of_ne hAB] at hd
      exact Or.inl ⟨p, hd, hr⟩

/-- From any state in which a file exists, its contents are those of an array of bytes on which the
operations have acted in the order of the history, and have returned what the history says. -/
theorem contents_as_array {es₁ es₂ : List FsEvent} {s₁ s₂ : Fs} {b₀ : Str}
    (h₁ : Fs.run es₁ = some s₁) (hx : s₁.Existing f b₀)
    (hc : TraceSystem.Meets Fs.step (ContentsOnly f) s₁ es₂)
    (h₂ : TraceSystem.run Fs.step s₁ es₂ = some s₂) :
    (∃ b, s₂.sys.content f = some b ∧ ArrayRun b₀ (Fs.history f s₁ es₂) b) ∧
      ∀ A op p r, op.main = f → s₂.doing A = some (op, p) → p.result = some r →
        (A, op, r) ∈ Fs.history f s₁ es₂ ∨ ∃ q, s₁.doing A = some (op, q) ∧ q.result = some r := by
  obtain ⟨κ₁,hinv₁⟩ := inv_run h₁
  have main : (∃ κ b, s₂.Inv κ ∧ s₂.Keeps κ f b ∧ ArrayRun b₀ (Fs.history f s₁ es₂) b) ∧
      ∀ A op p r, op.main = f → s₂.doing A = some (op, p) → p.result = some r →
        (A, op, r) ∈ Fs.history f s₁ es₂ ∨ ∃ q, s₁.doing A = some (op, q) ∧ q.result = some r := by
    refine hc.history (I := fun es s => (∃ κ b, s.Inv κ ∧ s.Keeps κ f b ∧
      ArrayRun b₀ (Fs.history f s₁ es) b) ∧ ∀ A op p r, op.main = f → s.doing A = some (op, p) →
        p.result = some r → (A, op, r) ∈ Fs.history f s₁ es ∨
          ∃ q, s₁.doing A = some (op, q) ∧ q.result = some r) ?_ ?_ h₂
    · exact ⟨⟨κ₁, b₀, hinv₁, hx.keeps, .nil⟩, fun A op p r _ hd hr => Or.inr ⟨p, hd, hr⟩⟩
    rintro fs e s s' - hrun ⟨⟨κ,b,hinv,hk,harr⟩,hres⟩ hC hstep
    obtain ⟨κ',hinv',hm⟩ := moves_step hinv hstep
    obtain ⟨b',hk',hsettled⟩ := contents_moves hinv hinv' hk hC hm (fs_steps hstep)
    have hlog : Fs.history f s₁ (fs ++ [e]) = Fs.history f s₁ fs ++
        ((s.settled e s').filter (fun x => x.2.1.main == f)).toList :=
      TraceSystem.observed_snoc hrun hstep
    rw [hlog]
    constructor
    · refine ⟨κ', b', hinv', hk', ?_⟩
      obtain ⟨hnone,rfl⟩ | ⟨A,op,r,hsome,hstep⟩ := hsettled
      · rw [hnone]
        simpa using harr
      · rw [hsome]
        exact harr.snoc hstep
    · intro A op p r hf hd hr
      obtain ⟨q,hq,hrq⟩ | hsome := settled_moves hm hd hr
      · obtain h1 | h1 := hres A op q r hf hq hrq
        · exact Or.inl (List.mem_append_left _ h1)
        · exact Or.inr h1
      · left
        apply List.mem_append_right
        simp [hsome, hf]
  obtain ⟨⟨κ,b,-,hk,harr⟩,hres⟩ := main
  exact ⟨⟨b, hk.content, harr⟩, hres⟩

end

/-- A new file, which one client writes at offset 2 and another one reads from offset 1. -/
def newFile : List FsEvent := mounts 0 ++ creates 0 [97] 5

def writeRead : List FsEvent :=
  [.start 0 (.write 0x80000005 [120, 121, 122] 2 3)] ++ retakes 0 ++
    [.call 0, .call 0] ++ frees 0 ++
    [.finish 0] ++ [.start 1 (.read 0x80000005 1 10)] ++ wrests 1 0x80000005 ++
    [.call 1, .inner (.client 1 0 .loadAttr)] ++ frees 1

/-- Where nothing is under way, the operations that are started are all there is. -/
theorem contentsOnly_run {s : Fs} {f : ℕ} {es : List FsEvent} {κ : ℕ → Knowledge} (hinv : s.Inv κ)
    (hidle : s.tasks = ∅) (hc : TraceSystem.Meets Fs.step
      (fun s e => e.starts Op.onContents = true ∧ ∀ b ∈ s.sys.content f, b.length < 2^32) s es) :
    TraceSystem.Meets Fs.step (ContentsOnly f) s es := by
  have hI : ∀ fs t, TraceSystem.Meets Fs.step (fun s e => e.starts Op.onContents = true ∧
      ∀ b ∈ s.sys.content f, b.length < 2^32) s fs → TraceSystem.run Fs.step s fs = some t →
      ∀ A op p, t.doing A = some (op, p) → op.onContents = true := by
    intro fs t hfs ht
    have hrun : (∃ κ, t.Inv κ) ∧ ∀ A op p, t.doing A = some (op, p) → op.onContents = true := by
      refine hfs.invariant (I := fun t => (∃ κ, t.Inv κ) ∧
        ∀ A op p, t.doing A = some (op, p) → op.onContents = true) ?_ ⟨⟨κ, hinv⟩, ?_⟩ ht
      · rintro r e r' ⟨⟨κr,hr⟩,hops⟩ hCe hstep
        obtain ⟨κ',hinv',hm⟩ := moves_step hr hstep
        refine ⟨⟨κ', hinv'⟩, doing_moves hm hops ?_⟩
        rintro A op rfl
        exact hCe.1
      · intro A op p hd
        simp [Fs.doing, Fs.task, hidle] at hd
    exact hrun.2
  refine (hc.strengthen hI).mono ?_
  rintro t e ⟨⟨hstart,hsize⟩,hops⟩
  refine ⟨?_, ?_, fun b hb => hsize b hb⟩
  · rintro A op rfl -
    exact hstart
  · intro A p name k hd
    have := hops A _ _ hd
    cases this

theorem written_then_read : ∃ s₁ s₂, Fs.run newFile = some s₁ ∧ s₁.Existing 0x80000005 [] ∧
    TraceSystem.run Fs.step s₁ writeRead = some s₂ ∧
    s₂.sys.content 0x80000005 = some [0, 0, 120, 121, 122] ∧
    ∃ b, s₂.sys.content 0x80000005 = some b ∧
      ArrayRun [] (Fs.history 0x80000005 s₁ writeRead) b := by
  obtain ⟨s₁,h₁,hidle,howner,hcopy,hcontent,hmeets,hrun⟩ := TraceSystem.reaches_of_any Fs.step
    (fun s => s.tasks.isEmpty = true ∧ (s.sys.lockTable.info 0x80000005).owner = some 0 ∧
      ((s.sys.client 0).localExtent[0x80000005]?).isSome = true ∧
      s.sys.content 0x80000005 = some [] ∧
      TraceSystem.Meets Fs.step (fun s e => e.starts Op.onContents = true ∧
        ∀ b ∈ s.sys.content 0x80000005, b.length < 2^32) s writeRead ∧
      (TraceSystem.run Fs.step s writeRead).any
        (fun t => t.sys.content 0x80000005 = some [0, 0, 120, 121, 122]) = true)
    Fs.init newFile (by decide +kernel)
  obtain ⟨κ,hinv⟩ := inv_run h₁
  have hidle' : s₁.tasks = ∅ := ExtTreeMap.isEmpty_iff.mp hidle
  have hx : s₁.Existing 0x80000005 [] := by
    refine ⟨by decide, hcontent, ?_, fun A op p hd => ?_, fun A op p hd => ?_⟩
    · rintro B ⟨hB,hnone,-⟩
      cases Option.some.inj (howner.symm.trans hB)
      rw [hnone] at hcopy
      cases hcopy
    · simp [Fs.doing, Fs.task, hidle'] at hd
    · simp [Fs.doing, Fs.task, hidle'] at hd
  obtain ⟨s₂,h₂,hnow⟩ := TraceSystem.reaches_of_any Fs.step
    (fun t => t.sys.content 0x80000005 = some [0, 0, 120, 121, 122]) s₁ writeRead hrun
  exact ⟨s₁, s₂, h₁, hx, h₂, hnow,
    (contents_as_array h₁ hx (contentsOnly_run hinv hidle' hmeets) h₂).1⟩

end DisconnectedYfs.YFS
