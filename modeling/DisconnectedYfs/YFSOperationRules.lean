import DisconnectedYfs.YFSKnowledge

/-! Rules for following an operation through everything it can be told. -/
namespace DisconnectedYfs.YFS
open Std

/-- The `get` in the loop that looks for an unused number. -/
def Prog.probe (mask : ℕ) (k : ℕ → Prog) (i : ℕ) : Prog :=
  .get i (fun r =>
    match r with
    | .error .noent => k i
    | _ => .release i (.alloc mask k))

/-- A number that `get_rand_num` can give, with the mask. -/
def Drawn (mask i : ℕ) : Prop := ∃ n ≤ 0xFFFF, i = n ||| mask

/-- `G` holds wherever the operation can come from here, whatever it is told. -/
def Prog.Always (G : Prog → Knowledge → Prop) : Prog → Knowledge → Prop
  | .ret r, K => G (.ret r) K
  | .throw, K => G .throw K
  | .acquire l k, K => G (.acquire l k) K ∧
    (K l = none → (k .ok).Always G (Function.update K l (some .unread)))
  | .release l k, K => G (.release l k) K ∧
    (K l ≠ none → k.Always G (Function.update K l none))
  | .get l k, K => G (.get l k) K ∧
    (∀ buf, K l = some .unread ∨ K l = some (.content buf) →
      (k (.ok buf)).Always G (Function.update K l (some (.content buf)))) ∧
    (K l = some .unread ∨ K l = some .absent →
      (k (.error .noent)).Always G (Function.update K l (some .absent)))
  | .getattr l k, K => G (.getattr l k) K ∧
    (∀ a buf, K l = some .unread ∨ K l = some (.content buf) → a.size = byteSize buf →
      (k (.ok a)).Always G (Function.update K l (some (.content buf)))) ∧
    (K l = some .unread ∨ K l = some .absent →
      (k (.error .noent)).Always G (Function.update K l (some .absent)))
  | .put l buf k, K => G (.put l buf k) K ∧
    (K l ≠ none → (k (.ok ())).Always G (Function.update K l (some (.content buf))))
  | .rename l name k, K => G (.rename l name k) K ∧
    (∀ buf, K l = some .unread ∨ K l = some (.content buf) →
      (k (.ok ())).Always G (Function.update K l (some (.content buf)))) ∧
    (K l = some .unread ∨ K l = some .absent →
      (k (.error .noent)).Always G (Function.update K l (some .absent)))
  | .remove l k, K => G (.remove l k) K ∧
    (k (.ok ())).Always G (Function.update K l ((K l).map (fun _ => .unread)))
  | .alloc mask k, K => G (.alloc mask k) K ∧ ∀ i, Drawn mask i → G (.tryInum mask k i) K ∧
    (K i = none →
      G (.probe mask k i) (Function.update K i (some .unread)) ∧
      (∀ buf, G (.release i (.alloc mask k)) (Function.update K i (some (.content buf)))) ∧
      (k i).Always G (Function.update K i (some .absent)))

section
variable {G : Prog → Knowledge → Prop} {p p' : Prog} {K K' : Knowledge} {a : Act} {op : Op}

theorem Prog.Always.here (h : p.Always G K) : G p K := by
  cases p with
  | ret | throw => exact h
  | _ => exact h.1

theorem Prog.Always.of_eq (h : p.Always G K) (hK : K' = K) : p.Always G K' := hK ▸ h

/-- One round of the loop either keeps the number or ends where it began. -/
theorem always_tryInum {mask i : ℕ} {k : ℕ → Prog} (h : (Prog.alloc mask k).Always G K)
    (hi : Drawn mask i) : (Prog.tryInum mask k i).Always G K := by
  have hloop := h
  obtain ⟨-,h⟩ := h
  obtain ⟨htry,h⟩ := h i hi
  refine ⟨htry, fun hK => ?_⟩
  obtain ⟨hprobe,hrel,hkeep⟩ := h hK
  refine ⟨hprobe, fun buf _ => ?_, fun _ => ?_⟩
  · rw [Function.update_idem]
    refine ⟨hrel buf, fun _ => ?_⟩
    rw [Function.update_idem, ← hK, Function.update_eq_self]
    exact hloop
  · rw [Function.update_idem]
    exact hkeep

theorem always_step (h : p.Always G K) (hp : p.step a = some p') (hl : Learns K a K') :
    p'.Always G K' := by
  cases step_steps hp with
  | acquire r =>
    cases hl with
    | acquire hk => exact h.2 hk
  | release =>
    cases hl with
    | release hk => exact h.2 hk
  | get r =>
    cases hl with
    | get hk => exact h.2.1 _ hk
    | getNone hk => exact h.2.2 hk
  | getattr r =>
    cases hl with
    | getattr hk hs => exact h.2.1 _ _ hk hs
    | getattrNone hk => exact h.2.2 hk
  | put r =>
    cases hl with
    | put hk => exact h.2 hk
  | rename r =>
    cases hl with
    | rename hk => exact h.2.1 _ hk
    | renameNone hk => exact h.2.2 hk
  | remove r =>
    cases hl with
    | remove => exact h.2
  | draw a b =>
    cases hl with
    | draw => exact always_tryInum h ⟨randNum a b, Nat.and_le_right, rfl⟩

theorem always_path (h : op.prog.Always G (fun _ => none)) (hp : Path op p K) : p.Always G K := by
  induction hp with
  | start => exact h
  | step _ hstep hl ih => exact always_step ih hstep hl

/-- Only `l` is held. -/
def Knowledge.only (l : ℕ) (k : Know) : Knowledge := Function.update (fun _ => none) l (some k)

/-- Two locks are held, `i` since later. -/
def Knowledge.both (l : ℕ) (k : Know) (i : ℕ) (k' : Know) : Knowledge :=
  Function.update (Knowledge.only l k) i (some k')

theorem only_of_ne {l j : ℕ} {k : Know} (h : j ≠ l) : Knowledge.only l k j = none :=
  Function.update_of_ne h _ _

@[simp] theorem only_self {l : ℕ} {k : Know} : Knowledge.only l k l = some k :=
  Function.update_self _ _ _

theorem ne_of_only {i l : ℕ} {k : Know} (h : Knowledge.only l k i = none) : i ≠ l := by
  rintro rfl
  simp at h

@[simp] theorem update_only {l : ℕ} {k k' : Know} :
    Function.update (Knowledge.only l k) l (some k') = Knowledge.only l k' :=
  Function.update_idem _ _ _

@[simp] theorem release_only {l : ℕ} {k : Know} :
    Function.update (Knowledge.only l k) l none = fun _ => none := by
  rw [Knowledge.only, Function.update_idem, Function.update_eq_self_iff]

@[simp] theorem both_self {l i : ℕ} {k k' : Know} : Knowledge.both l k i k' i = some k' :=
  Function.update_self _ _ _

theorem both_first {l i : ℕ} {k k' : Know} (h : i ≠ l) : Knowledge.both l k i k' l = some k :=
  (Function.update_of_ne h.symm _ _).trans only_self

@[simp] theorem update_both {l i : ℕ} {k k' k'' : Know} :
    Function.update (Knowledge.both l k i k') i (some k'') = Knowledge.both l k i k'' :=
  Function.update_idem _ _ _

theorem both_put {i l : ℕ} {k k' : Know} (h : i ≠ l) (k'' : Know) :
    Function.update (Knowledge.both l k i k') l (some k'') = Knowledge.both l k'' i k' := by
  unfold Knowledge.both
  rw [Function.update_comm h, update_only]

theorem both_release {i l : ℕ} {k k' : Know} (h : i ≠ l) :
    Function.update (Knowledge.both l k i k') i none = Knowledge.only l k := by
  rw [Knowledge.both, Function.update_idem, Function.update_eq_self_iff]
  exact (only_of_ne h).symm

end

/-- The inode number whose lock the operation takes first. -/
def Op.main : Op → ℕ
  | .mount => 1
  | .getfile ino | .getdir ino | .getdirContents ino | .setattr ino _ | .read ino _ _
  | .write ino _ _ _ => ino
  | .create p _ | .mkdir p _ | .unlink p _ | .lookup p _ => p

/-- Name, mask and first contents for the operations that make something. -/
def Op.makes : Op → Option (Str × ℕ × Str)
  | .create _ name => some (name, 0x80000000, [])
  | .mkdir _ name => some (name, 0, [58])
  | _ => none

/-- What `setattr` and `write` put for a file with these contents. -/
def Op.rewrites : Op → Str → Option Str
  | .setattr _ newSize, b => YfsClient.resized b (byteSize b).toNat newSize
  | .write _ buf off size, b => some (YfsClient.patched b (buf.take size.toNat) off)
  | _, _ => none

/-- The operations on the entries of a directory. -/
def Op.inDir : Op → Bool
  | .create _ _ | .mkdir _ _ | .unlink _ _ | .lookup _ _ | .getdirContents _ => true
  | _ => false

/-- What an operation will return, once that is settled. -/
def Prog.result : Prog → Option (Except YErr Out)
  | .ret r => some r
  | .release _ k => k.result
  | .remove _ k => (k (.ok ())).result
  | _ => none

/-- What an operation returns that changes nothing, given what it has found its first extent to
hold. -/
inductive Op.Reads : Op → Know → Except YErr Out → Prop
  | noent {op} : Reads op .absent (.error .noent)
  | mount {b} : Reads .mount (.content b) (.ok .done)
  | getfile {ino b a} (h : a.size = byteSize b) :
      Reads (.getfile ino) (.content b) (.ok (.file (YfsClient.fileinfo a)))
  | getdir {ino b din} : Reads (.getdir ino) (.content b) (.ok (.dirinfo din))
  | exist {op name mask buf b d} (hm : op.makes = some (name, mask, buf)) (hd : parseDir b = some d)
      (hn : (d[name]?).isSome) : Reads op (.content b) (.error .exist)
  | unlinkNone {p name b d} (hd : parseDir b = some d) (hn : d[name]? = none) :
      Reads (.unlink p name) (.content b) (.error .noent)
  | unlinkDir {p name b d f} (hd : parseDir b = some d) (hn : d[name]? = some f)
      (hf : isfile f = false) : Reads (.unlink p name) (.content b) (.error .ioerr)
  | lookupNone {p name b d} (hd : parseDir b = some d) (hn : d[name]? = none) :
      Reads (.lookup p name) (.content b) (.error .noent)
  | lookup {p name b d f} (hd : parseDir b = some d) (hn : d[name]? = some f) :
      Reads (.lookup p name) (.content b) (.ok (.inum f))
  | contents {ino b d} (hd : parseDir b = some d) :
      Reads (.getdirContents ino) (.content b) (.ok (.dir d))
  | setattr {ino newSize b} (hb : (Op.setattr ino newSize).rewrites b = none) :
      Reads (.setattr ino newSize) (.content b) (.ok .done)
  | read {ino off size b} :
      Reads (.read ino off size) (.content b) (.ok (.data (YfsClient.slice b off size)))

/-- What an operation returns, given what it knows of its first extent when it gives that lock
back. -/
inductive Op.Returns (op : Op) : Know → Except YErr Out → Prop
  | reads {w r} (h : op.Reads w r) : Returns op w r
  | mounted (h : op = .mount) : Returns op (.content YfsClient.rootStr) (.ok .done)
  | made {name mask buf b d i} (hm : op.makes = some (name, mask, buf))
      (hd : parseDir b = some d) (hn : d[name]? = none) (hi : Drawn mask i) :
      Returns op (.content (Dir.toStr (d.insert name i))) (.ok (.inum i))
  | rewrote {b b'} (hb : op.rewrites b = some b') : Returns op (.content b') (.ok .done)

/-- `create` or `mkdir`, in a directory in which the name is free. -/
structure Op.Making (op : Op) (name : Str) (mask : ℕ) (buf b : Str) (d : Dir) : Prop where
  makes : op.makes = some (name, mask, buf)
  parsed : parseDir b = some d
  unused : d[name]? = none

/-- `unlink`, in a directory in which the name is that of a file. -/
structure Op.Dropping (op : Op) (name b : Str) (d : Dir) (f : ℕ) : Prop where
  unlinks : op = .unlink op.main name
  parsed : parseDir b = some d
  entry : d[name]? = some f
  file : isfile f = true

/-- The places at which an operation can be, with what it knows there. -/
inductive Op.Stands (op : Op) : Prog → Knowledge → Prop
  | enter {k} : Stands op (.acquire op.main k) (fun _ => none)
  | get {w k} (hk : ∀ b r, (k (.ok b)).result = some r → op.Reads (.content b) r)
      (hn : ∀ r, (k (.error .noent)).result = some r → op.Reads .absent r) :
      Stands op (.get op.main k) (.only op.main w)
  | getattr {w k} (hk : ∀ a b r, a.size = byteSize b → (k (.ok a)).result = some r →
        op.Reads (.content b) r)
      (hn : ∀ r, (k (.error .noent)).result = some r → op.Reads .absent r) :
      Stands op (.getattr op.main k) (.only op.main w)
  | threw {b} (hop : op.inDir = true) (hb : parseDir b = none) :
      Stands op .throw (.only op.main (.content b))
  | leave {w r} (hr : op.Returns w r) : Stands op (.release op.main (.ret r)) (.only op.main w)
  | ret {r} : Stands op (.ret r) (fun _ => none)
  -- `setattr` and `write`
  | rewrite {b b' k} (hb : op.rewrites b = some b')
      (hk : k (.ok ()) = .release op.main (.ret (.ok .done))) :
      Stands op (.put op.main b' k) (.only op.main (.content b))
  -- `create` and `mkdir`
  | draw {name mask buf b d k} (hm : op.Making name mask buf b d) :
      Stands op (.alloc mask k) (.only op.main (.content b))
  | tryInum {name mask buf b d i k} (hm : op.Making name mask buf b d) (hi : Drawn mask i) :
      Stands op (.acquire i k) (.only op.main (.content b))
  | probe {name mask buf b d i k k'} (hm : op.Making name mask buf b d) (hi : Drawn mask i)
      (hne : i ≠ op.main) (hk : ∀ b', k (.ok b') = .release i (.alloc mask k')) :
      Stands op (.get i k) (.both op.main (.content b) i .unread)
  | reject {name mask buf b b' d i k} (hm : op.Making name mask buf b d) (hi : Drawn mask i)
      (hne : i ≠ op.main) :
      Stands op (.release i (.alloc mask k)) (.both op.main (.content b) i (.content b'))
  | fill {name mask buf b d i k} (hm : op.Making name mask buf b d) (hi : Drawn mask i)
      (hne : i ≠ op.main) : Stands op (.put i buf k) (.both op.main (.content b) i .absent)
  | rename {name mask buf b d i k} (hm : op.Making name mask buf b d) (hi : Drawn mask i)
      (hne : i ≠ op.main) :
      Stands op (.rename i name k) (.both op.main (.content b) i (.content buf))
  | link {name mask buf b d i k} (hm : op.Making name mask buf b d) (hi : Drawn mask i)
      (hne : i ≠ op.main) : Stands op (.put op.main (Dir.toStr (d.insert name i)) k)
        (.both op.main (.content b) i (.content buf))
  | made {name mask buf b d i} (hm : op.Making name mask buf b d) (hi : Drawn mask i)
      (hne : i ≠ op.main) : Stands op (.release i (.release op.main (.ret (.ok (.inum i)))))
        (.both op.main (.content (Dir.toStr (d.insert name i))) i (.content buf))
  -- `unlink`
  | find {name b d f k} (hd : op.Dropping name b d f) :
      Stands op (.acquire f k) (.only op.main (.content b))
  | erase {name b d f k k'} (hd : op.Dropping name b d f) (hne : f ≠ op.main)
      (hk : k (.ok ()) = .release f (.release op.main (.remove f k')))
      (hk' : k' (.ok ()) = .ret (.ok .done)) :
      Stands op (.put op.main (Dir.toStr (d.erase name)) k) (.both op.main (.content b) f .unread)
  | erased {name b d f k} (hd : op.Dropping name b d f) (hne : f ≠ op.main)
      (hk : k (.ok ()) = .ret (.ok .done)) :
      Stands op (.release f (.release op.main (.remove f k)))
        (.both op.main (.content (Dir.toStr (d.erase name))) f .unread)
  | unlocked {name b d f k} (hd : op.Dropping name b d f) (hne : f ≠ op.main)
      (hk : k (.ok ()) = .ret (.ok .done)) :
      Stands op (.release op.main (.remove f k))
        (.only op.main (.content (Dir.toStr (d.erase name))))
  | remove {name b d f k} (hd : op.Dropping name b d f) (hne : f ≠ op.main)
      (hk : k (.ok ()) = .ret (.ok .done)) :
      Stands op (.remove f k) (fun _ => none)
  -- the constructor of `yfs_client`
  | tmp {k} (hop : op = .mount) : Stands op (.acquire 2 k) (.only 1 .absent)
  | putRoot {k} (hop : op = .mount) :
      Stands op (.put 1 YfsClient.rootStr k) (.both 1 .absent 2 .unread)
  | putTmp {k} (hop : op = .mount) :
      Stands op (.put 2 [58] k) (.both 1 (.content YfsClient.rootStr) 2 .unread)
  | mounted (hop : op = .mount) :
      Stands op (.release 2 (.release 1 (.ret (.ok .done))))
        (.both 1 (.content YfsClient.rootStr) 2 (.content [58]))

section
variable {op : Op} {p : Prog} {K : Knowledge} {l i f mask : ℕ} {b buf name : Str} {d : Dir}

theorem stands_leave {w : Know} {r : Except YErr Out} (hl : op.main = l) (hr : op.Returns w r) :
    (Prog.release l (.ret r)).Always op.Stands (.only l w) := by
  subst hl
  refine ⟨.leave hr, fun _ => ?_⟩
  rw [release_only]
  exact .ret

theorem stands_lock {k : Prog} (hl : op.main = l) (hk : k.Always op.Stands (.only l .unread)) :
    (Prog.lock l k).Always op.Stands (fun _ => none) := by
  subst hl
  refine ⟨.enter, fun _ => ?_⟩
  dsimp only
  rw [if_neg (by simp)]
  exact hk

theorem stands_fetch {k : Str → Prog} (hl : op.main = l)
    (hr : ∀ b r, (k b).result = some r → op.Reads (.content b) r)
    (hk : ∀ b, (k b).Always op.Stands (.only l (.content b))) :
    (Prog.fetch l k).Always op.Stands (.only l .unread) := by
  subst hl
  refine ⟨.get hr ?_, fun b _ => ?_, fun _ => ?_⟩
  · rintro r ⟨⟩
    exact .noent
  · rw [update_only]
    exact hk b
  · rw [update_only]
    exact stands_leave rfl (.reads .noent)

theorem stands_openDir {k : Dir → Prog} (hl : op.main = l) (hop : op.inDir = true)
    (hr : ∀ b d r, parseDir b = some d → (k d).result = some r → op.Reads (.content b) r)
    (hk : ∀ b d, parseDir b = some d → (k d).Always op.Stands (.only l (.content b))) :
    (YfsClient.openDir l k).Always op.Stands (fun _ => none) := by
  refine stands_lock hl (stands_fetch hl (fun b r h => ?_) fun b => ?_)
  · unfold Prog.parse at h
    split at h
    · cases h
    · rename_i d hd
      exact hr b d r hd h
  · unfold Prog.parse
    split
    · rename_i hb
      exact hl ▸ .threw hop hb
    · rename_i d hd
      exact hk b d hd

/-- The end of `create` and `mkdir`. -/
theorem stands_link {k : Except ExtErr Unit → Prog} (hl : op.main = l)
    (hm : op.Making name mask buf b d) (hi : Drawn mask i) (hne : i ≠ l)
    (hk : k (.ok ()) = .release i (.release l (.ret (.ok (.inum i))))) :
    (Prog.put l (Dir.toStr (d.insert name i)) k).Always op.Stands
      (.both l (.content b) i (.content buf)) := by
  subst hl
  refine ⟨.link hm hi hne, fun _ => ?_⟩
  rw [both_put hne, hk]
  refine ⟨.made hm hi hne, fun _ => ?_⟩
  rw [both_release hne]
  exact stands_leave rfl (.made hm.makes hm.parsed hm.unused hi)

theorem stands_addFile (hop : op = .create l name) (hm : op.Making name 0x80000000 [] b d)
    (hi : Drawn 0x80000000 i) (hne : i ≠ l) :
    (YfsClient.addFile l name d i).Always op.Stands (.both l (.content b) i .absent) := by
  obtain rfl : op.main = l := by rw [hop]; rfl
  refine ⟨.fill hm hi hne, fun _ => ?_⟩
  rw [update_both]
  refine ⟨.rename hm hi hne, fun b' hb' => ?_, fun hb' => ?_⟩
  · obtain rfl : b' = [] := by simpa [eq_comm] using hb'
    rw [update_both]
    exact stands_link rfl hm hi hne rfl
  · simp at hb'

theorem stands_addDir (hop : op = .mkdir l name) (hm : op.Making name 0 [58] b d)
    (hi : Drawn 0 i) (hne : i ≠ l) :
    (YfsClient.addDir l name d i).Always op.Stands (.both l (.content b) i .absent) := by
  obtain rfl : op.main = l := by rw [hop]; rfl
  refine ⟨.fill hm hi hne, fun _ => ?_⟩
  rw [update_both]
  exact stands_link rfl hm hi hne rfl

theorem stands_alloc {k : ℕ → Prog} (hl : op.main = l) (hm : op.Making name mask buf b d)
    (hk : ∀ i, Drawn mask i → i ≠ l → (k i).Always op.Stands (.both l (.content b) i .absent)) :
    (Prog.alloc mask k).Always op.Stands (.only l (.content b)) := by
  subst hl
  refine ⟨.draw hm, fun i hi => ⟨.tryInum hm hi, fun h => ?_⟩⟩
  have hne := ne_of_only h
  exact ⟨.probe hm hi hne (fun _ => rfl), fun _ => .reject hm hi hne, hk i hi hne⟩

theorem stands_dropFile (hl : op.main = l) (hd : op.Dropping name b d f) :
    (YfsClient.dropFile l name d f).Always op.Stands (.only l (.content b)) := by
  subst hl
  refine ⟨.find hd, fun h => ?_⟩
  have hne := ne_of_only h
  dsimp only
  rw [if_neg (by simp)]
  refine ⟨.erase hd hne rfl rfl, fun _ => .of_eq ?_ (both_put hne _)⟩
  refine ⟨.erased hd hne rfl, fun _ => .of_eq ?_ (both_release hne)⟩
  refine ⟨.unlocked hd hne rfl, fun _ => ?_⟩
  rw [release_only]
  refine ⟨.remove hd hne rfl, ?_⟩
  show op.Stands (.ret (.ok .done)) (Function.update (fun _ => none) f none)
  rw [Function.update_eq_self_iff.mpr rfl]
  exact .ret

theorem stands_info {k : Except ExtErr Attr → Prog} {out : Attr → Out} (hl : op.main = l)
    (hok : ∀ a, k (.ok a) = .release l (.ret (.ok (out a))))
    (hno : k (.error .noent) = .release l (.ret (.error .noent)))
    (hr : ∀ a b, a.size = byteSize b → op.Reads (.content b) (.ok (out a))) :
    (Prog.lock l (.getattr l k)).Always op.Stands (fun _ => none) := by
  subst hl
  refine stands_lock rfl ⟨.getattr (fun a b r ha h => ?_) (fun r h => ?_), fun a b _ ha => ?_,
    fun _ => ?_⟩
  · rw [hok] at h
    cases h
    exact hr a b ha
  · rw [hno] at h
    cases h
    exact .noent
  · rw [update_only, hok]
    exact stands_leave rfl (.reads (hr a b ha))
  · rw [update_only, hno]
    exact stands_leave rfl (.reads .noent)

/-- Whether `setattr` puts anything depends on the size alone. -/
theorem resized_none {b b' : Str} {size : ℕ} {n : UInt32}
    (h : YfsClient.resized b size n = none) : YfsClient.resized b' size n = none := by
  unfold YfsClient.resized at h ⊢
  dsimp only at h ⊢
  split_ifs at h ⊢
  rfl

theorem stands_setattr {ino : ℕ} {newSize : UInt32} :
    (YfsClient.setattr ino newSize).Always (Op.setattr ino newSize).Stands (fun _ => none) := by
  -- what `getattr` says is the size of what `get` has read
  have hsize : ∀ (a : Attr) (b : Str), a.size = byteSize b →
      YfsClient.resized b (YfsClient.fileinfo a).size newSize =
        (Op.setattr ino newSize).rewrites b := by
    intro a b ha
    simp [Op.rewrites, YfsClient.fileinfo, ha]
  refine stands_lock rfl (stands_fetch rfl ?_ fun b =>
    ⟨.getattr (fun a b' r ha h => ?_) (fun r h => ?_), fun a b' hb' ha => ?_, fun h => ?_⟩)
  · rintro b r ⟨⟩
  · dsimp only at h
    split at h
    · cases h
    · rename_i hb
      cases h
      exact .setattr (hsize a b' ha ▸ resized_none hb)
  · cases h
    exact .noent
  · obtain rfl : b' = b := by simpa [eq_comm] using hb'
    rw [update_only]
    dsimp only
    rw [hsize a b' ha]
    split
    · rename_i b'' hb
      refine ⟨.rewrite hb rfl, fun _ => ?_⟩
      rw [update_only]
      exact stands_leave rfl (.rewrote hb)
    · rename_i hb
      exact stands_leave rfl (.reads (.setattr hb))
  · simp at h

theorem stands_op (op : Op) : op.prog.Always op.Stands (fun _ => none) := by
  cases op with
  | mount =>
    refine ⟨.enter, fun _ => ⟨.get ?_ ?_, fun b _ => ?_, fun _ => ?_⟩⟩
    · rintro b r ⟨⟩
      exact .mount
    · rintro r ⟨⟩
    · exact .of_eq (stands_leave rfl (.reads .mount)) update_only
    · refine .of_eq ?_ update_only
      refine ⟨.tmp rfl, fun _ => ⟨.putRoot rfl, fun _ => .of_eq ?_ (both_put (by simp) _)⟩⟩
      refine ⟨.putTmp rfl, fun _ => .of_eq ?_ update_both⟩
      refine ⟨.mounted rfl, fun _ => .of_eq ?_ (both_release (by simp))⟩
      exact stands_leave rfl (.mounted rfl)
  | getfile ino => exact stands_info rfl (fun _ => rfl) rfl fun a b ha => .getfile ha
  | getdir ino => exact stands_info rfl (fun _ => rfl) rfl fun a b ha => .getdir
  | create l name =>
    refine stands_openDir rfl rfl (fun b d r hd h => ?_) fun b d hd => ?_
    · split_ifs at h with hn
      · cases h
        exact .exist rfl hd hn
      · cases h
    · split_ifs with hn
      · exact stands_leave rfl (.reads (.exist rfl hd hn))
      · have hm : (Op.create l name).Making name 0x80000000 [] b d := ⟨rfl, hd, by simpa using hn⟩
        exact stands_alloc rfl hm fun i hi hne => stands_addFile rfl hm hi hne
  | mkdir l name =>
    refine stands_openDir rfl rfl (fun b d r hd h => ?_) fun b d hd => ?_
    · split_ifs at h with hn
      · cases h
        exact .exist rfl hd hn
      · cases h
    · split_ifs with hn
      · exact stands_leave rfl (.reads (.exist rfl hd hn))
      · have hm : (Op.mkdir l name).Making name 0 [58] b d := ⟨rfl, hd, by simpa using hn⟩
        exact stands_alloc rfl hm fun i hi hne => stands_addDir rfl hm hi hne
  | unlink l name =>
    refine stands_openDir rfl rfl (fun b d r hd h => ?_) fun b d hd => ?_
    · split at h
      · rename_i hn
        cases h
        exact .unlinkNone hd hn
      · rename_i f hn
        split_ifs at h with hf
        · cases h
        · cases h
          exact .unlinkDir hd hn (by simpa using hf)
    · split
      · rename_i hn
        exact stands_leave rfl (.reads (.unlinkNone hd hn))
      · rename_i f hn
        split_ifs with hf
        · exact stands_dropFile rfl ⟨rfl, hd, hn, hf⟩
        · exact stands_leave rfl (.reads (.unlinkDir hd hn (by simpa using hf)))
  | lookup l name =>
    refine stands_openDir rfl rfl (fun b d r hd h => ?_) fun b d hd => ?_
    · split at h
      · rename_i hn
        cases h
        exact .lookupNone hd hn
      · rename_i f hn
        cases h
        exact .lookup hd hn
    · split
      · rename_i hn
        exact stands_leave rfl (.reads (.lookupNone hd hn))
      · rename_i f hn
        exact stands_leave rfl (.reads (.lookup hd hn))
  | getdirContents ino =>
    refine stands_openDir rfl rfl ?_ fun b d hd => stands_leave rfl (.reads (.contents hd))
    rintro b d r hd ⟨⟩
    exact .contents hd
  | setattr ino newSize => exact stands_setattr
  | read ino off size =>
    refine stands_lock rfl (stands_fetch rfl ?_ fun b => stands_leave rfl (.reads .read))
    rintro b r ⟨⟩
    exact .read
  | write ino buf off size =>
    refine stands_lock rfl (stands_fetch rfl ?_ fun b => ⟨.rewrite rfl rfl, fun _ => ?_⟩)
    · rintro b r ⟨⟩
    · rw [update_only]
      exact stands_leave rfl (.rewrote rfl)

end

/-- Wherever an operation can come, it is at one of these places. -/
theorem path_stands {op : Op} {p : Prog} {K : Knowledge} (h : Path op p K) : op.Stands p K :=
  (always_path (stands_op op) h).here

/-- The last thing an operation does. -/
theorem stands_last {op : Op} {l : ℕ} {r : Except YErr Out} {K : Knowledge}
    (h : op.Stands (.release l (.ret r)) K) :
    ∃ w, l = op.main ∧ K = .only op.main w ∧ op.Returns w r := by
  generalize hp : Prog.release l (.ret r) = q at h
  cases h <;> cases hp
  case leave w hr => exact ⟨w, rfl, rfl, hr⟩

end DisconnectedYfs.YFS
