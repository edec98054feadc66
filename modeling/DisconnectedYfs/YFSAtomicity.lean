import DisconnectedYfs.AtomicObject
import DisconnectedYfs.YFSSettling

/-! The file system is one object on which the operations of all clients take effect one after
another, each between its call and its return. -/
namespace DisconnectedYfs.YFS
open Std AtomicObject

inductive Node where
  | file (buf : Str)
  | dir (d : Dir)

/-- What a read of the extent sees. -/
def Node.bytes : Node → Str
  | .file buf => buf
  | .dir d => d.toStr

/-- The files and directories by their numbers. -/
abbrev Tree := ℕ → Option Node

/-- No directory has an entry for the number. -/
def Tree.Orphan (T : Tree) (f : ℕ) : Prop := 
  ∀ (q : ℕ) (d : Dir), T q = some (.dir d) → ∀ name : Str, d[name]? ≠ some f

/-- A file without a name may be lost, or come back as it was earlier. -/
def Tree.Drifts (T T' : Tree) : Prop :=
  ∀ i, T' i = T i ∨ T.Orphan i ∧ 
    ∃ (b : Str) (c : Option Str), T i = some (.file b) ∧ T' i = c.map .file

/-- What the operations do to the tree. A size is said modulo 2^32, and what `setattr` does to a
file that has outgrown that is left open. -/
inductive Tree.Does : Op → Tree → Except YErr Out → Tree → Prop
  | noent {op : Op} {T : Tree} (hop : op ≠ .mount) (h : T op.main = none) :
      Does op T (.error .noent) T
  | mount {T : Tree} (h1 : T 1 = none) (h2 : T 2 = none) : Does .mount T (.ok .done)
      (Function.update (Function.update T 2 (some (.dir ∅))) 1 (some (.dir rootDir)))
  | remount {T : Tree} {n} (h : T 1 = some n) : Does .mount T (.ok .done) T
  | getfile {ino fin} {T : Tree} {n} (h : T ino = some n) (hs : fin.size = n.bytes.length % 2^32) :
      Does (.getfile ino) T (.ok (.file fin)) T
  | getdir {ino din} {T : Tree} {n} (h : T ino = some n) :
      Does (.getdir ino) T (.ok (.dirinfo din)) T
  | read {ino off size} {T : Tree} {n} (h : T ino = some n) : Does (.read ino off size) T
      (.ok (.data (PaddedArray.read n.bytes off.toNat size.toNat))) T
  | contents {ino d} {T : Tree} (h : T ino = some (.dir d)) :
      Does (.getdirContents ino) T (.ok (.dir d)) T
  | lookup {p name d i} {T : Tree} (h : T p = some (.dir d)) (hn : d[name]? = some i) :
      Does (.lookup p name) T (.ok (.inum i)) T
  | lookupNone {p name d} {T : Tree} (h : T p = some (.dir d)) (hn : d[name]? = none) :
      Does (.lookup p name) T (.error .noent) T
  | exist {op : Op} {name mask buf d} {T : Tree} (hm : op.makes = some (name, mask, buf))
      (h : T op.main = some (.dir d)) (hn : (d[name]?).isSome) : Does op T (.error .exist) T
  | create {p name d i} {T : Tree} (h : T p = some (.dir d)) (hn : d[name]? = none)
      (hi : isfile i = true) (hnew : T i = none) : Does (.create p name) T (.ok (.inum i))
        (Function.update (Function.update T i (some (.file []))) p (some (.dir (d.insert name i))))
  | mkdir {p name d i} {T : Tree} (h : T p = some (.dir d)) (hn : d[name]? = none)
      (hi : isfile i = false) (hnew : T i = none) : Does (.mkdir p name) T (.ok (.inum i))
        (Function.update (Function.update T i (some (.dir ∅))) p (some (.dir (d.insert name i))))
  | unlinkNone {p name d} {T : Tree} (h : T p = some (.dir d)) (hn : d[name]? = none) :
      Does (.unlink p name) T (.error .noent) T
  | unlinkDir {p name d f} {T : Tree} (h : T p = some (.dir d)) (hn : d[name]? = some f)
      (hf : isfile f = false) : Does (.unlink p name) T (.error .ioerr) T
  | unlink {p name d f} {T : Tree} (h : T p = some (.dir d)) (hn : d[name]? = some f)
      (hf : isfile f = true) : Does (.unlink p name) T (.ok .done)
        (Function.update T p (some (.dir (d.erase name))))
  | setattr {ino newSize b b'} {T : Tree} (h : T ino = some (.file b))
      (hb : b.length < 2^32 → b' = PaddedArray.resize b newSize.toNat) :
      Does (.setattr ino newSize) T (.ok .done) (Function.update T ino (some (.file b')))
  | write {ino buf off size b} {T : Tree} (h : T ino = some (.file b)) :
      Does (.write ino buf off size) T (.ok .done) (Function.update T ino
        (some (.file (PaddedArray.write b off.toNat (buf.take size.toNat)))))

/-- The object that the clients have in front of them; there is nothing before the first of them
mounts it. -/
def fileTree : Spec Tree Op (Except YErr Out) :=
  { init := fun _ => none, does := Tree.Does, drifts := Tree.Drifts }

/-- What an extent is, by its number and its contents. -/
def Fs.node (s : Fs) (i : ℕ) : Option Node :=
  (s.sys.content i).bind (fun b => if isfile i then some (.file b) else (parseDir b).map .dir)

/-- The operation of `A` has given the number an extent and no name yet. -/
def Fs.AheadBy (s : Fs) (κ : ℕ → Knowledge) (A i : ℕ) : Prop :=
  (s.sys.client A).aborted = false ∧ ∃ op p, s.doing A = some (op, p) ∧ op.Ahead i p (κ A)

open Classical in
/-- The extents that have taken effect. -/
noncomputable def Fs.tree (s : Fs) (κ : ℕ → Knowledge) : Tree := fun i =>
  if ∃ A, s.AheadBy κ A i then none else s.node i

/-- The operations under way, and what those will return that are settled. -/
def Fs.pending (s : Fs) : Pending ℕ Op (Except YErr Out) :=
  fun A => (s.doing A).map (fun x => (x.1, x.2.result))

/-- The state of the object that a state of the file system stands for. -/
noncomputable def Fs.object (s : Fs) (κ : ℕ → Knowledge) : State Tree ℕ Op (Except YErr Out) :=
  ⟨s.tree κ, s.pending⟩

/-- What a step shows of the operations. -/
def Fs.shows (s : Fs) (e : FsEvent) (_ : Fs) : Option (Label ℕ Op (Except YErr Out)) :=
  match e with
  | .start A op => some (.call A op)
  | .finish A =>
    match s.doing A with
    | some (_, .ret r) => some (.back A r)
    | _ => none
  | _ => none

/-- The calls and returns of a run. -/
def Fs.seen (es : List FsEvent) : List (Label ℕ Op (Except YErr Out)) :=
  AtomicObject.history Fs.step Fs.shows Fs.init [] es

section
variable {s s' : Fs} {κ κ' : ℕ → Knowledge} {e : FsEvent} {A B i l : ℕ} {op : Op} {p p' : Prog}
  {a : Act} {K K' : Knowledge} {b buf : Str} {d : Dir} {r : Except YErr Out}

theorem node_none (h : s.sys.content i = none) : s.node i = none := by
  simp [Fs.node, h]

theorem node_congr (h : s'.sys.content i = s.sys.content i) : s'.node i = s.node i := by
  simp [Fs.node, h]

theorem node_file (hi : isfile i = true) : s.node i = (s.sys.content i).map .file := by
  rcases hc : s.sys.content i with _ | b <;> simp [Fs.node, hc, hi]

theorem node_dir (hi : isfile i = false) (hc : s.sys.content i = some b)
    (hd : parseDir b = some d) :
    s.node i = some (.dir d) := by
  simp [Fs.node, hc, hi, hd]

theorem node_is_dir (h : s.node i = some (.dir d)) :
    isfile i = false ∧ ∃ b, s.sys.content i = some b ∧ parseDir b = some d := by
  obtain ⟨b,hb,hn⟩ := Option.bind_eq_some_iff.mp h
  split_ifs at hn with hi
  · cases hn
  · obtain ⟨d',hd',heq⟩ := Option.map_eq_some_iff.mp hn
    cases heq
    exact ⟨by simpa using hi, b, hb, hd'⟩

/-- What there is can be read. -/
theorem node_bytes (hdirs : s.Dirs) (hc : s.sys.content i = some b) :
    ∃ n, s.node i = some n ∧ n.bytes = b := by
  by_cases hi : isfile i = true
  · exact ⟨.file b, by rw [node_file hi, hc]; rfl, rfl⟩
  · rw [Bool.not_eq_true] at hi
    obtain ⟨d,-,heq,hparse⟩ := hdirs.parse hi hc
    exact ⟨.dir d, node_dir hi hc hparse, heq.symm⟩

theorem tree_ahead (h : s.AheadBy κ A i) : s.tree κ i = none := if_pos ⟨A, h⟩

theorem tree_eq (h : ¬ ∃ A, s.AheadBy κ A i) : s.tree κ i = s.node i := if_neg h

theorem tree_le {n : Node} (h : s.tree κ i = some n) : s.node i = some n := by
  by_cases ha : ∃ A, s.AheadBy κ A i
  · rw [Fs.tree, if_pos ha] at h
    cases h
  · rwa [tree_eq ha] at h

/-- A number that no directory has is an orphan of the tree. -/
theorem tree_orphan (h : s.Unnamed i) : (s.tree κ).Orphan i := by
  intro q d hq name hn
  obtain ⟨hfile,b,hb,hd⟩ := node_is_dir (tree_le hq)
  exact h q name hfile ((entry_of_parse hb hd name).trans hn)

/-- Its process ends only with a step of a client's own thread. -/
theorem aborts (hs : s.Steps e s') (hrun : (s.sys.client A).aborted = false)
    (hab : (s'.sys.client A).aborted = true) :
    (∃ op p m, s.doing A = some (op, p) ∧ p.move = some m ∧
      s.sys.step (.client A 0 m) = some s'.sys) ∨
    ∃ m, (Event.client A 0 m).isInner = true ∧ s.sys.step (.client A 0 m) = some s'.sys := by
  have hother : ∀ {B m}, s.sys.step (.client B 0 m) = some s'.sys → B = A := by
    intro B m hsys
    by_contra hB
    rw [client_others hsys (Ne.symm hB), hrun] at hab
    cases hab
  rcases fs_sys hs with ⟨heq,-⟩ | ⟨B,op,p,m,rfl,htask,hm,hsys⟩ | ⟨e',rfl,he',hsys⟩
  · rw [heq, hrun] at hab
    cases hab
  · obtain rfl := hother hsys
    exact Or.inl ⟨op, p, m, doing_eq htask, hm, hsys⟩
  · right
    by_cases hc : ∃ B T m, e' = .client B T m
    · obtain ⟨B,T,m,rfl⟩ := hc
      obtain ⟨rfl,-⟩ := isInner_client he'
      obtain rfl := hother hsys
      exact ⟨m, he', hsys⟩
    · have hmsg := message_step he' (fun B T m heq => hc ⟨B, T, m, heq⟩) hsys
      rw [hmsg.aborted A, hrun] at hab
      cases hab

theorem access_done {c : Client} {t : Table} {now : UInt32} {T : ℕ} {x : Access} {o : Outcome}
    (h : c.access t now T l x = some o) : ∃ c', o = .done c' t ∧ c'.aborted = c.aborted := by
  unfold Client.access at h
  dsimp only at h
  rcases hs : (c.thread T).section? l with _ | read
  · rw [hs] at h
    cases h
  rw [hs] at h
  dsimp only at h
  split_ifs at h
  split at h
  · cases h
    exact ⟨_, rfl, rfl⟩
  · split at h <;>
    · cases h
      exact ⟨_, rfl, rfl⟩

theorem access_runs {sys sys' : Sys} {x : Access}
    (h : sys.step (.client A 0 (.access l x)) = some sys') :
    (sys'.client A).aborted = false := by
  have hrun := step_running h
  simp only [Sys.step, Client.move] at h
  split_ifs at h
  rcases ho : (sys.client A).access sys.table sys.now 0 l x with _ | o
  · rw [ho] at h
    cases h
  · obtain ⟨c,rfl,hab⟩ := access_done ho
    rw [ho] at h
    cases h
    show ((sys.setClient A c).client A).aborted = false
    rw [client_setClient, if_pos rfl, hab, hrun]

/-- While an operation is ahead its process does not end: it puts, or renames what it has put. -/
theorem ahead_running (hinv : s.Inv κ) (hs : s.Steps e s') (hrun : (s.sys.client A).aborted = false)
    (hd : s.doing A = some (op, p)) (ha : op.Ahead i p (κ A)) :
    (s'.sys.client A).aborted = false := by
  have hcall : (∃ l buf k, p = .put l buf k) ∨ ∃ l name k, p = .rename l name k ∧
      κ A l ≠ some .unread := by
    cases ha with
    | making h hk =>
      obtain ⟨-,-,-,⟨_,_,rfl⟩ | ⟨_,_,rfl⟩ | ⟨_,_,rfl⟩⟩ := fresh_known h
      · exact Or.inl ⟨_, _, _, rfl⟩
      · exact Or.inr ⟨_, _, _, rfl, by simp [hk]⟩
      · exact Or.inl ⟨_, _, _, rfl⟩
    | rooting _ _ hp => exact Or.inl ⟨_, _, _, hp⟩
  by_contra hab
  rw [Bool.not_eq_false] at hab
  obtain ⟨op',p',m,hd',hm,hsys⟩ | ⟨m,hm,hsys⟩ := aborts hs hrun hab
  · cases hd.symm.trans hd'
    obtain ⟨l,buf,k,rfl⟩ | ⟨l,name,k,rfl,-⟩ := hcall
    · cases hm
      rw [(not_busy_iff.mp (put_not_busy hsys)).1] at hab
      cases hab
    · cases hm
      rw [access_runs hsys] at hab
      cases hab
  · have hcalls := inner_calls hm hsys
    cases hinv.standing A with
    | gone hgone =>
      rw [hrun] at hgone
      cases hgone
    | idle _ hth =>
      rw [hth] at hcalls
      exact hcalls rfl
    | ready _ _ hno => exact hcalls hno
    | busy htask _ hin =>
      rw [doing_eq htask] at hd
      cases hd
      obtain ⟨l,buf,k,rfl⟩ | ⟨l,name,k,rfl,hk⟩ := hcall
      · cases hin with
        | acquiring hp | releasing hp => cases hp
        | loading hm => cases hm
      · cases hin with
        | acquiring hp | releasing hp => cases hp
        | loading hm _ hunread =>
          cases hm
          exact hk hunread

/-- Who is ahead with a number has its lock, and its extent. -/
theorem aheadBy_known (hinv : s.Inv κ) (h : s.AheadBy κ A i) :
    (s.sys.lockTable.info i).owner = some A ∧ (∀ B, ¬ s.sys.DoomedBy i B) ∧ κ A i ≠ none := by
  obtain ⟨hrun,op,p,hd,ha⟩ := h
  obtain ⟨⟨buf,hk⟩,hp,-⟩ := ahead_known ha
  have hne : κ A i ≠ none := by simp [hk]
  obtain ⟨howner,hdoom⟩ := has_owner hinv.ordered ((known hinv hrun hd (hp i)).1 hne)
  exact ⟨howner, hdoom, hne⟩

/-- Nobody else is ahead with a number whose lock an operation has. -/
theorem others_behind (hinv : s.Inv κ) (hrun : (s.sys.client A).aborted = false)
    (hd : s.doing A = some (op, p)) (hp : ∀ k, p ≠ .release l k) (hk : κ A l ≠ none)
    (h : s.AheadBy κ B l) : B = A := by
  have hA := (has_owner hinv.ordered ((known hinv hrun hd hp).1 hk)).1
  exact Option.some.inj ((aheadBy_known hinv h).1.symm.trans hA)

/-- A step of other operations leaves alone who is ahead. -/
theorem aheadBy_frame (hinv : s.Inv κ) (hs : s.Steps e s') (hd : s'.doing B = s.doing B)
    (hκ : κ' B = κ B) : s'.AheadBy κ' B i ↔ s.AheadBy κ B i := by
  constructor
  · rintro ⟨hrun,op,p,hdB,ha⟩
    rw [hd] at hdB
    rw [hκ] at ha
    exact ⟨running_back hs B hrun, op, p, hdB, ha⟩
  · rintro ⟨hrun,op,p,hdB,ha⟩
    exact ⟨ahead_running hinv hs hrun hdB ha, op, p, hd.trans hdB, hκ ▸ ha⟩

/-- The change of the tree while who is ahead stays: a file without a name is lost or changes. -/
theorem tree_step (hahead : (∃ A, s'.AheadBy κ' A l) ↔ ∃ A, s.AheadBy κ A l)
    (h : s'.sys.content l = s.sys.content l ∨ isfile l = true ∧ s.Unnamed l ∧
      s.sys.content l ≠ none) :
    s'.tree κ' l = s.tree κ l ∨ (s.tree κ).Orphan l ∧
      ∃ (b : Str) (c : Option Str), s.tree κ l = some (.file b) ∧ s'.tree κ' l = c.map .file := by
  by_cases ha : ∃ A, s.AheadBy κ A l
  · obtain ⟨A,hA⟩ := ha
    obtain ⟨B,hB⟩ := hahead.mpr ⟨A, hA⟩
    exact Or.inl ((tree_ahead hB).trans (tree_ahead hA).symm)
  · rw [tree_eq ha, tree_eq (mt hahead.mp ha)]
    rcases h with hsame | ⟨hfile,hun,hsome⟩
    · exact Or.inl (node_congr hsame)
    · obtain ⟨b,hb⟩ := Option.ne_none_iff_exists'.mp hsome
      exact Or.inr ⟨tree_orphan hun, b, s'.sys.content l, by rw [node_file hfile, hb]; rfl,
        node_file hfile⟩

/-- What is left alone stays, unless it has no name. -/
theorem leaves_or (hdirs : s.Dirs) (hin : s.Inums κ) (h : s.Leaves s' l) :
    s'.sys.content l = s.sys.content l ∨ isfile l = true ∧ s.Unnamed l ∧
    s.sys.content l ≠ none := by
  obtain hsame | ⟨⟨B,hB⟩,hnone⟩ := h
  · exact Or.inl hsame
  by_cases hc : s.sys.content l = none
  · exact Or.inl (hnone.trans hc.symm)
  right
  have hfile : isfile l = true := by
    by_contra hl
    exact hdirs.kept l (by simpa using hl) B hB
  refine ⟨hfile, fun q name hq hi => ?_, hc⟩
  have hl2 : l ≠ 2 := by
    rintro rfl
    cases hfile
  exact (hin.kept q name l hq hi hl2).2 B hB

/-- An operation that has read its extent returns what the object does. -/
theorem reads_does {v : Know} {T : Tree} (hdirs : s.Dirs) (htyped : op.typed = true)
    (hr : op.Reads v r) (hmount : op = .mount → r = .ok .done) (hT : T op.main = s.node op.main)
    (hc : ∀ b, v = .content b → s.sys.content op.main = some b)
    (hn : v = .absent → s.sys.content op.main = none) : Tree.Does op T r T := by
  have hsome : ∀ b, v = .content b → ∃ n, T op.main = some n ∧ n.bytes = b := by
    intro b hb
    obtain ⟨n,hnode,hbytes⟩ := node_bytes hdirs (hc b hb)
    exact ⟨n, hT.trans hnode, hbytes⟩
  have hdir : ∀ b d, isfile op.main = false → v = .content b → parseDir b = some d →
      T op.main = some (.dir d) := by
    intro b d hfile hb hd
    exact hT.trans (node_dir hfile (hc b hb) hd)
  cases hr with
  | noent =>
    refine .noent (fun hop => ?_) (hT.trans (node_none (hn rfl)))
    cases hmount hop
  | @mount b =>
    obtain ⟨n,hT1,-⟩ := hsome b rfl
    exact .remount hT1
  | @getfile ino b a ha =>
    obtain ⟨n,hTn,hbytes⟩ := hsome b rfl
    refine .getfile hTn ?_
    simp [YfsClient.fileinfo, ha, hbytes, byteSize]
  | @getdir ino b din =>
    obtain ⟨n,hTn,-⟩ := hsome b rfl
    exact .getdir hTn
  | @exist op name mask buf b d hm hd hname =>
    have hfile : isfile op.main = false := by
      cases op <;> simp_all [Op.makes, Op.typed, Op.main]
    exact .exist hm (hdir b d hfile rfl hd) hname
  | @unlinkNone p name b d hd hname =>
    exact .unlinkNone (hdir b d (by simpa [Op.typed, Op.main] using htyped) rfl hd) hname
  | @unlinkDir p name b d f hd hname hf =>
    exact .unlinkDir (hdir b d (by simpa [Op.typed, Op.main] using htyped) rfl hd) hname hf
  | @lookupNone p name b d hd hname =>
    exact .lookupNone (hdir b d (by simpa [Op.typed, Op.main] using htyped) rfl hd) hname
  | @lookup p name b d f hd hname =>
    exact .lookup (hdir b d (by simpa [Op.typed, Op.main] using htyped) rfl hd) hname
  | @contents ino b d hd =>
    exact .contents (hdir b d (by simpa [Op.typed, Op.main] using htyped) rfl hd)
  | @setattr ino newSize b hb =>
    have hfile : T ino = some (.file b) := by
      rw [show T ino = s.node ino from hT, node_file htyped,
        show s.sys.content ino = some b from hc b rfl]
      rfl
    have hstep : Tree.Does (.setattr ino newSize) T (.ok .done)
        (Function.update T ino (some (.file b))) := by
      refine .setattr hfile (fun hsize => ?_)
      rw [← resized_eq hsize, show YfsClient.resized b (byteSize b).toNat newSize = none from hb]
      rfl
    rwa [← hfile, Function.update_eq_self] at hstep
  | @read ino off size b =>
    obtain ⟨n,hTn,hbytes⟩ := hsome b rfl
    rw [slice_eq, ← hbytes]
    exact .read hTn

/-- What `setattr` and `write` put is what the object does to the file. -/
theorem rewrites_does {b' : Str} {T : Tree} (htyped : op.typed = true)
    (hb : op.rewrites b = some b')
    (hT : T op.main = some (.file b)) :
    Tree.Does op T (.ok .done) (Function.update T op.main (some (.file b'))) := by
  cases op with
  | setattr ino newSize =>
    refine .setattr hT (fun hsize => ?_)
    rw [← resized_eq hsize, show YfsClient.resized b (byteSize b).toNat newSize = some b' from hb]
    rfl
  | write ino data off size =>
    obtain rfl : YfsClient.patched b (data.take size.toNat) off = b' := Option.some.inj hb
    rw [patched_eq]
    exact .write hT
  | _ => cases hb

theorem settled_behind (hr : p.result ≠ none) (i : ℕ) : ¬ op.Ahead i p K :=
  fun ha => hr (ahead_known ha).2.2

end

/-- The step of an operation that has got an answer, with what is known of it. -/
structure Fs.Acts (s : Fs) (κ : ℕ → Knowledge) (s' : Fs) (κ' : ℕ → Knowledge) (A : ℕ) (op : Op)
    (p : Prog) (K : Knowledge) (a : Act) (p' : Prog) (K' : Knowledge) : Prop where
  inv : s.Inv κ
  inv' : s'.Inv κ'
  dirs : s.Dirs
  dirs' : s'.Dirs
  rooted : s.Rooted κ
  inums : s.Inums κ
  steps : ∃ e, s.Steps e s'
  run : (s.sys.client A).aborted = false
  run' : (s'.sys.client A).aborted = false
  doing : s.doing A = some (op, p)
  doing' : s'.doing = Function.update s.doing A (some (op, p'))
  knows : κ A = K
  knows' : κ' = Function.update κ A K'
  path : Path op p K
  step : p.step a = some p'
  learns : Learns K a K'
  agrees : ((s'.sys.client A).localAt s'.sys.table 0).Agrees K'
  content : ∀ l, s.Leaves s' l ∨ (∃ buf, a = .put l buf (.ok ()) ∧ s'.sys.content l = some buf) ∨
    a = .remove l (.ok ()) ∧ (s.sys.client A).localExtent[l]? ≠ none

section
variable {s s' : Fs} {κ κ' : ℕ → Knowledge} {A B i l : ℕ} {op : Op} {p p' : Prog} {a : Act}
  {K K' : Knowledge} {b buf : Str} {d : Dir} {r : Except YErr Out}
  (h : s.Acts κ s' κ' A op p K a p' K')
include h

theorem Fs.Acts.others (hB : B ≠ A) : s'.AheadBy κ' B i ↔ s.AheadBy κ B i := by
  obtain ⟨e,hs⟩ := h.steps
  apply aheadBy_frame h.inv hs
  · rw [h.doing', Function.update_of_ne hB]
  · rw [h.knows', Function.update_of_ne hB]

theorem Fs.Acts.before : s.AheadBy κ A i ↔ op.Ahead i p K := by
  constructor
  · rintro ⟨-,op',p₀,hd,ha⟩
    cases h.doing.symm.trans hd
    exact h.knows ▸ ha
  · intro ha
    exact ⟨h.run, op, p, h.doing, h.knows.symm ▸ ha⟩

theorem Fs.Acts.after : s'.AheadBy κ' A i ↔ op.Ahead i p' K' := by
  have hd' : s'.doing A = some (op, p') := by rw [h.doing', Function.update_self]
  have hK : κ' A = K' := by rw [h.knows', Function.update_self]
  constructor
  · rintro ⟨-,op',p₀,hd,ha⟩
    cases hd'.symm.trans hd
    exact hK ▸ ha
  · intro ha
    exact ⟨h.run', op, p', hd', hK.symm ▸ ha⟩

theorem Fs.Acts.ahead_iff (ha : op.Ahead i p' K' ↔ op.Ahead i p K) :
    (∃ B, s'.AheadBy κ' B i) ↔ ∃ B, s.AheadBy κ B i := by
  apply exists_congr
  intro B
  by_cases hB : B = A
  · subst hB
    rw [h.after, h.before, ha]
  · exact h.others hB

/-- What the operation holds is in the tree unless it is ahead with it itself. -/
theorem Fs.Acts.held (hp : ∀ k, p ≠ .release l k) (hk : K l ≠ none) (ha : ¬ op.Ahead l p K) :
    s.tree κ l = s.node l := by
  apply tree_eq
  rintro ⟨B,hB⟩
  obtain rfl := others_behind h.inv h.run h.doing hp (h.knows.symm ▸ hk) hB
  exact ha (h.before.mp hB)

theorem Fs.Acts.held' (hp : ∀ k, p ≠ .release l k) (hk : K l ≠ none) (ha : ¬ op.Ahead l p' K') :
    s'.tree κ' l = s'.node l := by
  apply tree_eq
  rintro ⟨B,hB⟩
  by_cases hBA : B = A
  · subst hBA
    exact ha (h.after.mp hB)
  · exact hBA (others_behind h.inv h.run h.doing hp (h.knows.symm ▸ hk) ((h.others hBA).mp hB))

theorem Fs.Acts.stands : op.Stands p K := path_stands h.path

/-- What an operation knows is what the extents hold, before and after the step. -/
theorem Fs.Acts.told (hp : ∀ k, p ≠ .release l k) :
    (∀ b, K l = some (.content b) → s.sys.content l = some b) ∧
      (K l = some .absent → s.sys.content l = none) := by
  have := (known (l := l) h.inv h.run h.doing hp).2
  rwa [h.knows] at this

theorem Fs.Acts.told' : (∀ b, K' l = some (.content b) → s'.sys.content l = some b) ∧
    (K' l = some .absent → s'.sys.content l = none) :=
  (agrees_content (l := l) h.inv'.ordered h.agrees).2

/-- A file that is removed has no name. -/
theorem Fs.Acts.removed (ha : a = .remove l (.ok ()))
    (hc : (s.sys.client A).localExtent[l]? ≠ none) :
    isfile l = true ∧ s.Unnamed l ∧ s.sys.content l ≠ none := by
  have hstep := h.step
  rw [ha] at hstep
  obtain ⟨entry,hentry⟩ := Option.ne_none_iff_exists'.mp hc
  obtain ⟨howner,hcontent⟩ := copy_owner h.inv.ordered hentry
  have hst := h.stands
  have hd := h.doing
  cases step_steps hstep with
  | remove =>
    refine ⟨remove_file hst, ?_, by simp [hcontent]⟩
    exact h.inums.dropped A op _ l h.run hd (h.knows.symm ▸ remove_removing hst) (by simp) howner

/-- Where nothing is put, files without a name are all that changes. -/
theorem Fs.Acts.drifts (hput : ∀ l buf, a ≠ .put l buf (.ok ()))
    (ha : ∀ i, op.Ahead i p' K' ↔ op.Ahead i p K) : (s.tree κ).Drifts (s'.tree κ') := by
  intro l
  apply tree_step (h.ahead_iff (ha l))
  rcases h.content l with hl | ⟨buf,hl,-⟩ | ⟨hl,hc⟩
  · exact leaves_or h.dirs h.inums hl
  · exact absurd hl (hput l buf)
  · exact Or.inr (h.removed hl hc)

/-- The same for the extents that a put does not touch. -/
theorem Fs.Acts.drifts_put (ha : a = .put l buf (.ok ())) (t : ℕ → Prop)
    [DecidablePred t] (hl : t l)
    (hahead : ∀ i, ¬ t i → (op.Ahead i p' K' ↔ op.Ahead i p K)) :
    (s.tree κ).Drifts (fun i => if t i then s.tree κ i else s'.tree κ' i) := by
  intro i
  by_cases hi : t i
  · left
    dsimp only
    rw [if_pos hi]
  · dsimp only
    rw [if_neg hi]
    apply tree_step (h.ahead_iff (hahead i hi))
    rcases h.content i with hleave | ⟨buf',heq,-⟩ | ⟨heq,-⟩
    · exact leaves_or h.dirs h.inums hleave
    · rw [ha] at heq
      cases heq
      exact absurd hl hi
    · rw [ha] at heq
      cases heq

/-- A put to the operation's own extent, with which the operation takes effect. -/
theorem Fs.Acts.put_does {n : Node} (ha : a = .put l buf (.ok ())) (hend : p'.result ≠ none)
    (hbehind : ∀ i, ¬ op.Ahead i p K) (hn : s'.tree κ' l = some n)
    (hdoes : ∀ T : Tree, T l = s.tree κ l → Tree.Does op T r (Function.update T l (some n))) :
    ∃ T, (s.tree κ).Drifts T ∧ Tree.Does op T r (s'.tree κ') := by
  refine ⟨_, h.drifts_put ha (· = l) rfl
    (fun i _ => iff_of_false (settled_behind hend i) (hbehind i)), ?_⟩
  have hnew := hdoes (fun i => if i = l then s.tree κ i else s'.tree κ' i) (if_pos rfl)
  convert hnew using 1
  ext1 i
  by_cases hi : i = l
  · subst hi
    rw [Function.update_self, hn]
  · rw [Function.update_of_ne hi, if_neg hi]

/-- The same with a second extent, which has been ahead or comes with it. -/
theorem Fs.Acts.put_does_two {m n : Node} (ha : a = .put l buf (.ok ())) {j : ℕ} (hij : i ≠ j)
    (hl : l = i ∨ l = j) (hend : p'.result ≠ none) (hbehind : ∀ k, k ≠ i → k ≠ j → ¬ op.Ahead k p K)
    (hm : s'.tree κ' j = some m) (hn : s'.tree κ' i = some n)
    (hdoes : ∀ T : Tree, T i = s.tree κ i → T j = s.tree κ j →
      Tree.Does op T r (Function.update (Function.update T j (some m)) i (some n))) :
    ∃ T, (s.tree κ).Drifts T ∧ Tree.Does op T r (s'.tree κ') := by
  have hahead : ∀ k, ¬ (k = i ∨ k = j) → (op.Ahead k p' K' ↔ op.Ahead k p K) := fun k hk =>
    iff_of_false (settled_behind hend k) (hbehind k (mt Or.inl hk) (mt Or.inr hk))
  refine ⟨_, h.drifts_put ha (fun k => k = i ∨ k = j) hl hahead, ?_⟩
  have hnew := hdoes (fun k => if k = i ∨ k = j then s.tree κ k else s'.tree κ' k)
    (if_pos (Or.inl rfl)) (if_pos (Or.inr rfl))
  convert hnew using 1
  ext1 k
  by_cases hki : k = i
  · subst hki
    rw [Function.update_self, hn]
  by_cases hkj : k = j
  · subst hkj
    rw [Function.update_of_ne hki, Function.update_self, hm]
  · rw [Function.update_of_ne hki, Function.update_of_ne hkj, if_neg (by simp [hki, hkj])]

end

section
variable {s s' : Fs} {κ κ' : ℕ → Knowledge} {e : FsEvent} {A i f mask : ℕ} {op : Op} {p p' : Prog}
  {a : Act} {K K' : Knowledge} {b b' buf name : Str} {d : Dir} {r : Except YErr Out}
  {k : Except ExtErr Unit → Prog}

theorem rewrites_effect (h : s.Acts κ s' κ' A op (.put op.main b' k) (.only op.main (.content b))
      (.put op.main b' (.ok ())) p' (.only op.main (.content b')))
    (hb : op.rewrites b = some b') (hend : p'.result ≠ none) :
    ∃ T, (s.tree κ).Drifts T ∧ Tree.Does op T (.ok .done) (s'.tree κ') := by
  have hops := h.dirs.ops A op _ h.doing
  have hfile : isfile op.main = true := by
    cases op <;> simp_all [Op.rewrites, Op.typed, Op.main]
  have hold : s.tree κ op.main = some (.file b) := by
    rw [h.held (by simp) (by simp) ahead_only, node_file hfile, (h.told (by simp)).1 b only_self]
    rfl
  have hnew : s'.tree κ' op.main = some (.file b') := by
    rw [h.held' (by simp) (by simp) (settled_behind hend _), node_file hfile,
      h.told'.1 b' only_self]
    rfl
  exact h.put_does rfl hend (fun _ => ahead_only) hnew
    (fun T hT => rewrites_does hops.1 hb (hT.trans hold))

theorem Op.Making.mkdir (h : op.Making name 0 buf b d) : op = .mkdir op.main name := by
  have := h.makes
  cases op <;> simp_all [Op.makes, Op.main]

theorem Op.Making.create (h : op.Making name 0x80000000 buf b d) : op = .create op.main name := by
  have := h.makes
  cases op <;> simp_all [Op.makes, Op.main]

/-- The extent has been ahead; with the put of the directory it is in the tree. -/
theorem makes_effect (h : s.Acts κ s' κ' A op (.put op.main (Dir.toStr (d.insert name i)) k)
      (.both op.main (.content b) i (.content buf))
      (.put op.main (Dir.toStr (d.insert name i)) (.ok ())) p'
      (.both op.main (.content (Dir.toStr (d.insert name i))) i (.content buf)))
    (hm : op.Making name mask buf b d) (hi : Drawn mask i) (hne : i ≠ op.main)
    (hend : p'.result ≠ none) :
    ∃ T, (s.tree κ).Drifts T ∧ Tree.Does op T (.ok (.inum i)) (s'.tree κ') := by
  have hops := h.dirs.ops A op _ h.doing
  have hfile : isfile op.main = false := by
    have := hm.makes
    cases op <;> simp_all [Op.makes, Op.typed, Op.main]
  have hmain : ∀ j, op.Ahead j (.put op.main (Dir.toStr (d.insert name i)) k)
      (.both op.main (.content b) i (.content buf)) → j = i :=
    fun j hj => (ahead_both hj hm.not_mount).1
  have hold : s.tree κ op.main = some (.dir d) := by
    rw [h.held (by simp) (by simp [both_first hne]) (fun hj => hne (hmain _ hj).symm)]
    exact node_dir hfile ((h.told (by simp)).1 b (both_first hne)) hm.parsed
  have hnone : s.tree κ i = none :=
    tree_ahead (h.before.mpr (.making (.link hm hi hne) both_self))
  have hnew : s'.tree κ' op.main = some (.dir (d.insert name i)) := by
    rw [h.held' (by simp) (by simp [both_first hne]) (settled_behind hend _)]
    exact node_dir hfile (h.told'.1 _ (both_first hne)) (parseDir_toStr (hm.linked_wf hops.2 hi))
  have hnode : s'.tree κ' i = s'.node i := h.held' (by simp) (by simp) (settled_behind hend _)
  have hcontent : s'.sys.content i = some buf := h.told'.1 buf both_self
  have hbehind : ∀ j, j ≠ op.main → j ≠ i →
    ¬ op.Ahead j (.put op.main (Dir.toStr (d.insert name i)) k)
      (.both op.main (.content b) i (.content buf)) := fun j _ hj => mt (hmain j) hj
  obtain ⟨rfl,rfl⟩ | ⟨rfl,rfl⟩ := hm.mask
  · have hdir : s'.tree κ' i = some (.dir ∅) := hnode.trans (node_dir (drawn_dir hi) hcontent rfl)
    refine h.put_does_two rfl hne.symm (Or.inl rfl) hend hbehind hdir hnew (fun T hT hTi => ?_)
    have hdoes : Tree.Does (.mkdir op.main name) T _ _ :=
      .mkdir (hT.trans hold) hm.unused (drawn_dir hi) (hTi.trans hnone)
    rwa [← hm.mkdir] at hdoes
  · have hempty : s'.tree κ' i = some (.file []) := by
      rw [hnode, node_file (drawn_file hi), hcontent]
      rfl
    refine h.put_does_two rfl hne.symm (Or.inl rfl) hend hbehind hempty hnew (fun T hT hTi => ?_)
    have hdoes : Tree.Does (.create op.main name) T _ _ :=
      .create (hT.trans hold) hm.unused (drawn_file hi) (hTi.trans hnone)
    rwa [← hm.create] at hdoes

theorem drops_effect (h : s.Acts κ s' κ' A op (.put op.main (Dir.toStr (d.erase name)) k)
      (.both op.main (.content b) f .unread) (.put op.main (Dir.toStr (d.erase name)) (.ok ())) p'
      (.both op.main (.content (Dir.toStr (d.erase name))) f .unread))
    (hd : op.Dropping name b d f) (hne : f ≠ op.main) (hend : p'.result ≠ none) :
    ∃ T, (s.tree κ).Drifts T ∧ Tree.Does op T (.ok .done) (s'.tree κ') := by
  have hfile : isfile op.main = false := by
    have := (h.dirs.ops A op _ h.doing).1
    rw [hd.unlinks] at this
    simpa [Op.typed] using this
  have hbehind : ∀ j, ¬ op.Ahead j (.put op.main (Dir.toStr (d.erase name)) k)
      (.both op.main (.content b) f .unread) := fun j => not_ahead hd.not_mount (by simp)
  have hold : s.tree κ op.main = some (.dir d) := by
    rw [h.held (by simp) (by simp [both_first hne]) (hbehind _)]
    exact node_dir hfile ((h.told (by simp)).1 b (both_first hne)) hd.parsed
  have hnew : s'.tree κ' op.main = some (.dir (d.erase name)) := by
    rw [h.held' (by simp) (by simp [both_first hne]) (settled_behind hend _)]
    exact node_dir hfile (h.told'.1 _ (both_first hne))
      (parseDir_toStr ((parseDir_wf hd.parsed).erase name))
  refine h.put_does rfl hend hbehind hnew (fun T hT => ?_)
  have hdoes : Tree.Does (.unlink op.main name) T _ _ := .unlink (hT.trans hold) hd.entry hd.file
  rwa [← hd.unlinks] at hdoes

/-- With `tmp` the root directory is in the tree, which has been made before. -/
theorem mounts_effect (h : s.Acts κ s' κ' A .mount (.put 2 [58] k)
      (.both 1 (.content YfsClient.rootStr) 2 .unread) (.put 2 [58] (.ok ())) p'
      (.both 1 (.content YfsClient.rootStr) 2 (.content [58]))) (hend : p'.result ≠ none) :
    ∃ T, (s.tree κ).Drifts T ∧ Tree.Does .mount T (.ok .done) (s'.tree κ') := by
  have hfirst : ∀ w, Knowledge.both 1 (.content YfsClient.rootStr) 2 w 1 =
      some (.content YfsClient.rootStr) := fun w => both_first (by simp)
  have hold1 : s.tree κ 1 = none :=
    tree_ahead (h.before.mpr (.rooting rfl rfl rfl (hfirst _) both_self))
  have hold2 : s.tree κ 2 = none := by
    rw [h.held (by simp) (by simp) (fun hj => by simpa using (mount_ahead hj).1)]
    exact node_none (h.rooted.tmp A _ h.run h.doing (by rw [h.knows, both_self]))
  have hnew1 : s'.tree κ' 1 = some (.dir rootDir) := by
    rw [h.held' (by simp) (by simp [hfirst]) (settled_behind hend _)]
    refine node_dir (by decide) (h.told'.1 _ (hfirst _)) ?_
    rw [rootStr_eq, parseDir_toStr rootDir_wf]
  have hnew2 : s'.tree κ' 2 = some (.dir ∅) := by
    rw [h.held' (by simp) (by simp) (settled_behind hend _)]
    exact node_dir (by decide) (h.told'.1 _ both_self) rfl
  exact h.put_does_two (i := 1) (j := 2) rfl (by simp) (Or.inr rfl) hend
    (fun j hj _ ha => hj (mount_ahead ha).1) hnew2 hnew1
    (fun T hT1 hT2 => .mount (hT1.trans hold1) (hT2.trans hold2))

/-- With the step that settles its result an operation takes effect. -/
theorem settles_effect (h : s.Acts κ s' κ' A op p K a p' K') (hset : op.Settles p K a K' r)
    (hr : p'.result = some r) : ∃ T, (s.tree κ).Drifts T ∧ Tree.Does op T r (s'.tree κ') := by
  cases hset with
  | @reads p w v a r hp hread hmount hput hremove =>
    have hend : p'.result ≠ none := by simp [hr]
    have hbehind : ∀ i, ¬ op.Ahead i p' (.only op.main v) := settled_behind hend
    refine ⟨s'.tree κ', h.drifts hput (fun i => iff_of_false (hbehind i) ahead_only), ?_⟩
    have htold := h.told' (l := op.main)
    rw [only_self] at htold
    refine reads_does h.dirs' (h.dirs.ops A op p h.doing).1 hread hmount
      (h.held' hp (by simp) (hbehind _)) ?_ ?_
    · rintro b rfl
      exact htold.1 b rfl
    · rintro rfl
      exact htold.2 rfl
  | rewrites hb => exact rewrites_effect h hb (by simp [hr])
  | makes hm hi hne => exact makes_effect h hm hi hne (by simp [hr])
  | drops hd hne => exact drops_effect h hd hne (by simp [hr])
  | mounts hop =>
    subst hop
    exact mounts_effect h (by simp [hr])

theorem pending_acts (h : s.Acts κ s' κ' A op p K a p' K') :
    s'.pending = Function.update s.pending A (some (op, p'.result)) := by
  ext1 B
  unfold Fs.pending
  rw [h.doing', Function.update_apply, Function.update_apply]
  split_ifs <;> rfl

theorem pending_same (h : s.Acts κ s' κ' A op p K a p' K') (hr : p'.result = p.result) :
    s'.pending = s.pending := by
  rw [pending_acts h, hr]
  refine Function.update_eq_self_iff.mpr ?_
  simp [Fs.pending, h.doing]

/-- A step of an operation is matched: the tree drifts, or the operation takes effect. -/
theorem acts_trace (h : s.Acts κ s' κ' A op p K a p' K') :
    Trace fileTree (s.object κ) [] (s'.object κ') := by
  have hdrift : (s.tree κ).Drifts (s'.tree κ') → p'.result = p.result →
      Trace fileTree (s.object κ) [] (s'.object κ') := by
    intro hd hr
    have hstep : Step fileTree (s.object κ) none ⟨s'.tree κ', s.pending⟩ := .drift hd
    rw [← pending_same h hr] at hstep
    exact hstep.trace
  have hops := h.dirs.ops A op p h.doing
  rcases hr : p.result with _ | r
  · obtain ⟨r,hr',hset⟩ | ⟨hr',hquiet⟩ := settles_or h.path hops.2 h.step h.learns hr
    · obtain ⟨T,hd,hdoes⟩ := settles_effect h hset hr'
      have hp : (s.object κ).pending A = some (op, none) := by
        simp [Fs.object, Fs.pending, h.doing, hr]
      have htrace : Trace fileTree (s.object κ) [] ⟨s'.tree κ', _⟩ := .drift_commit hd hp hdoes
      have hpending := pending_acts h
      rw [hr'] at hpending
      rwa [show (s.object κ).pending = s.pending from rfl, ← hpending] at htrace
    · refine hdrift ?_ (hr'.trans hr.symm)
      cases hquiet with
      | quiet hput _ hahead => exact h.drifts hput hahead
      | @ahead l buf ha hk hahead hbefore =>
        -- an extent that is ahead is not in the tree, as before
        have hstep := h.step
        rw [ha] at hstep
        cases step_steps hstep with
        | put =>
          have hold : s.tree κ l = none := by
            rw [h.held (by simp) (by simp [hk]) (hbefore l)]
            exact node_none ((h.told (by simp)).2 hk)
          have hnew : s'.tree κ' l = none := tree_ahead (h.after.mpr ((hahead l).mpr rfl))
          have hd := h.drifts_put ha (· = l) rfl
            (fun i hi => iff_of_false (mt (hahead i).mp hi) (hbefore i))
          convert hd using 1
          ext1 i
          split_ifs with hi
          · rw [hi, hold, hnew]
          · rfl
  · have hr' := result_step hr h.step h.learns
    refine hdrift (h.drifts ?_ fun i => iff_of_false ?_ ?_) (hr'.trans hr.symm)
    · rintro l buf rfl
      have hstep := h.step
      cases step_steps hstep with
      | put => cases hr
    · exact settled_behind (by simp [hr']) i
    · exact settled_behind (by simp [hr]) i

/-- What the file system keeps, and the object it stands for. -/
def Fs.StandsFor (s : Fs) (o : State Tree ℕ Op (Except YErr Out)) : Prop :=
  ∃ κ, s.Inv κ ∧ s.Dirs ∧ s.Rooted κ ∧ s.Inums κ ∧ o = s.object κ

/-- Where the operations stay the tree drifts. -/
theorem quiet_drifts (hinv : s.Inv κ) (hdirs : s.Dirs) (hin : s.Inums κ) (hs : s.Steps e s')
    (hd : s'.doing = s.doing) (hκ : κ' = κ) (hcontent : ∀ l, s.Leaves s' l) :
    (s.tree κ).Drifts (s'.tree κ') := by
  intro l
  refine tree_step (exists_congr fun B => ?_) (leaves_or hdirs hin (hcontent l))
  exact aheadBy_frame hinv hs (by rw [hd]) (by rw [hκ])

/-- An operation that starts or ends is not ahead. -/
theorem tree_same (hinv : s.Inv κ) (hs : s.Steps e s') (hsys : s'.sys = s.sys)
    (hd : ∀ B, B ≠ A → s'.doing B = s.doing B) (hκ : ∀ B, B ≠ A → κ' B = κ B)
    (hA : ∀ i, ¬ s.AheadBy κ A i) (hA' : ∀ i, ¬ s'.AheadBy κ' A i) : s'.tree κ' = s.tree κ := by
  ext1 i
  have hnode : s'.node i = s.node i := node_congr (by rw [hsys])
  have hahead : (∃ B, s'.AheadBy κ' B i) ↔ ∃ B, s.AheadBy κ B i := by
    apply exists_congr
    intro B
    by_cases hB : B = A
    · subst hB
      exact iff_of_false (hA' i) (hA i)
    · exact aheadBy_frame hinv hs (hd B hB) (hκ B hB)
  by_cases ha : ∃ B, s.AheadBy κ B i
  · obtain ⟨B,hB⟩ := ha
    obtain ⟨B',hB'⟩ := hahead.mpr ⟨B, hB⟩
    rw [tree_ahead hB, tree_ahead hB']
  · rw [tree_eq ha, tree_eq (mt hahead.mp ha), hnode]

/-- Every step of the file system is matched by steps of the object. -/
theorem atomic_step {o : State Tree ℕ Op (Except YErr Out)} (ho : s.StandsFor o)
    (he : e.starts (fun op => op.typed && op.plain) = true) (hstep : s.step e = some s') :
    ∃ o', Trace fileTree o (s.shows e s').toList o' ∧ s'.StandsFor o' := by
  obtain ⟨κ,hinv,hdirs,hroot,hin,rfl⟩ := ho
  obtain ⟨κ',hinv',hm⟩ := moves_step hinv hstep
  have hs := fs_steps hstep
  have hdirs' := dirs_moves hdirs he hm
  have hroot' := rooted_moves hinv hroot hm (running_back hs)
  have hin' := inums_moves hinv hinv' hdirs hroot hroot' hin hm hs
  refine ⟨s'.object κ', ?_, κ', hinv', hdirs', hroot', hin', rfl⟩
  cases hm with
  | @start A op hnone hd' hκ hsys =>
    have htree : s'.tree κ' = s.tree κ := by
      refine tree_same hinv hs hsys (A := A) (fun B hB => ?_) (fun B hB => ?_) ?_ ?_
      · rw [hd', Function.update_of_ne hB]
      · rw [hκ, Function.update_of_ne hB]
      · rintro i ⟨-,op',p,hd,-⟩
        rw [hnone] at hd
        cases hd
      · rintro i ⟨-,op',p,hd,ha⟩
        rw [hd', Function.update_self] at hd
        cases hd
        rw [hκ, Function.update_self] at ha
        exact ahead_start ha
    have hpending : s'.pending = Function.update s.pending A (some (op, none)) := by
      ext1 B
      unfold Fs.pending
      rw [hd', Function.update_apply, Function.update_apply]
      split_ifs
      · rw [Option.map_some, prog_result]
      · rfl
    have hcall : Step fileTree (s.object κ) (some (.call A op)) ⟨s.tree κ, _⟩ :=
      .invoke (show s.pending A = none by simp [Fs.pending, hnone])
    rw [show (s.object κ).pending = s.pending from rfl, ← hpending, ← htree] at hcall
    exact hcall.trace
  | @finish A op r hd hd' hκ hsys =>
    have htree : s'.tree κ' = s.tree κ := by
      refine tree_same hinv hs hsys (A := A) (fun B hB => ?_) (fun B _ => by rw [hκ]) ?_ ?_
      · rw [hd', Function.update_of_ne hB]
      · rintro i ⟨-,op',p,hdA,ha⟩
        cases hd.symm.trans hdA
        exact settled_behind (by simp [Prog.result]) i ha
      · rintro i ⟨-,op',p,hdA,-⟩
        rw [hd', Function.update_self] at hdA
        cases hdA
    have hpending : s'.pending = Function.update s.pending A none := by
      ext1 B
      unfold Fs.pending
      rw [hd', Function.update_apply, Function.update_apply]
      split_ifs <;> rfl
    have hback : Step fileTree (s.object κ) (some (.back A r)) ⟨s.tree κ, _⟩ :=
      .respond (show s.pending A = some (op, some r) by simp [Fs.pending, hd, Prog.result])
    rw [show (s.object κ).pending = s.pending from rfl, ← hpending, ← htree] at hback
    have hshows : s.shows (.finish A) s' = some (.back A r) := by simp [Fs.shows, hd]
    rw [hshows]
    exact hback.trace
  | @act A op p p' a K' _ hact hrun hd hpath hp hl hd' hκ hrun' hagree hcontent _ =>
    have hshows : s.shows e s' = none := by
      cases e with
      | start B op' =>
        cases hact
        cases hs with
        | start htask => simp [Fs.doing, htask] at hd
      | finish B =>
        cases hact
        cases hs with
        | finish htask =>
          rw [doing_eq htask] at hd
          cases hd
          cases hp
      | _ => rfl
    rw [hshows]
    exact acts_trace ⟨hinv, hinv', hdirs, hdirs', hroot, hin, ⟨e, hs⟩, hrun, hrun',
      hd, hd', rfl, hκ, hpath, hp, hl, hagree, hcontent⟩
  | quiet hd' hκ hcontent =>
    have hpending : s'.pending = s.pending := by
      unfold Fs.pending
      rw [hd']
    have hshows : s.shows e s' = none := by
      cases e with
      | start B op' =>
        cases hs with
        | start htask =>
          have := congrFun hd' B
          simp [Fs.doing, htask] at this
      | finish B =>
        cases hs with
        | finish htask =>
          have := congrFun hd' B
          simp [Fs.doing, htask, task_erase] at this
      | _ => rfl
    have hdrift : Step fileTree (s.object κ) none ⟨s'.tree κ', s.pending⟩ :=
      .drift (quiet_drifts hinv hdirs hin hs hd' hκ hcontent)
    rw [hshows]
    rw [← hpending] at hdrift
    exact hdrift.trace

theorem atomic_init : Fs.init.StandsFor fileTree.start := by
  refine ⟨_, inv_init, dirs_init, rooted_init, inums_init, ?_⟩
  have hnone : Fs.init.tree (fun _ _ => none) = fun _ => none := by
    ext1 i
    rw [tree_eq]
    · apply node_none
      simp [Fs.init, Sys.content, LockTable.info]
    · rintro ⟨A,-,op,p,hd,-⟩
      simp [Fs.init, Fs.doing, Fs.task] at hd
  have hidle : Fs.init.pending = fun _ => none := by
    ext1 A
    simp [Fs.pending, Fs.init, Fs.doing, Fs.task]
  rw [Fs.object, hnone, hidle]
  rfl

/-- What the clients see of the file system, in any run in which the names have no separators, is
what they see of the tree when the operations act on it one after another, in an order that keeps
the order of real time. The order has the operations that were called and no others, but for some of
those under way. While no operation is under way, what the order leaves behind is what the extents
hold. -/
theorem files_atomic {es : List FsEvent} (hc : PlainRun es) (hrun : Fs.run es = some s) :
    ∃ log T, Linearizes fileTree (Fs.seen es) log T ∧ Matches (Fs.seen es) log s.pending ∧
      ((∀ A, (s.sys.client A).aborted = false → s.doing A = none) → T = s.node) := by
  have hstep : ∀ (s : Fs) (e : FsEvent) (s' : Fs) (o : State Tree ℕ Op (Except YErr Out)),
      s.StandsFor o → e.starts (fun op => op.typed && op.plain) = true → s.step e = some s' →
      ∃ o', Trace fileTree o (s.shows e s').toList o' ∧ s'.StandsFor o' :=
    fun _ _ _ _ ho he hstep => atomic_step ho he hstep
  obtain ⟨o,htrace,κ,-,-,-,-,rfl⟩ := simulates hstep atomic_init hc hrun
  obtain ⟨log,hlog,hmatches⟩ := trace_linearizes htrace
  refine ⟨log, s.tree κ, hlog, hmatches, fun hidle => ?_⟩
  ext1 i
  apply tree_eq
  rintro ⟨A,hrunA,op,p,hd,-⟩
  rw [hidle A hrunA] at hd
  cases hd

end

/-- A client looks up a name while another one makes the file. -/
def overlapping : List FsEvent :=
  mounts 0 ++ [.start 1 (.lookup 1 [97])] ++ creates 0 [97] 5 ++ wrests 1 1 ++
    [.call 1, .inner (.client 1 0 .loadAttr)] ++ frees 1 ++ [.finish 1]

theorem files_atomic_overlapping : ∃ s log, Fs.run overlapping = some s ∧
    Linearizes fileTree (Fs.seen overlapping) log s.node ∧
      Matches (Fs.seen overlapping) log (fun _ => none) ∧ s.entry 1 [97] = some 0x80000005 := by
  obtain ⟨s,hrun,hidle,hentry⟩ := TraceSystem.reaches_of_any Fs.step
    (fun s => s.tasks.isEmpty = true ∧ s.entry 1 [97] = some 0x80000005) Fs.init overlapping
    (by decide +kernel)
  have hplain : PlainRun overlapping := TraceSystem.Meets.of_labels (by decide +kernel) Fs.init
  obtain ⟨log,T,hlog,hmatches,hT⟩ := files_atomic hplain hrun
  have hidle' : s.tasks = ∅ := ExtTreeMap.isEmpty_iff.mp hidle
  have hdoing : ∀ A, s.doing A = none := fun A => by simp [Fs.doing, Fs.task, hidle']
  have hpending : s.pending = fun _ => none := by
    ext1 A
    rw [Fs.pending, hdoing]
    rfl
  refine ⟨s, log, hrun, ?_, hpending ▸ hmatches, hentry⟩
  rw [← hT (fun A _ => hdoing A)]
  exact hlog

end DisconnectedYfs.YFS
