import DisconnectedYfs.YFSInums
import DisconnectedYfs.YFSFileContents

/-! Where the operations settle what they return, and what they have done until then. A new file or
directory has its extent before it has its name, and the constructor makes the root directory before
`tmp`; everything else takes effect with the one put that settles the result. -/
namespace DisconnectedYfs.YFS
open Std

/-- What an operation returns if nothing is refused; `none` if it has still to be told something. -/
def Prog.outcome : Prog → Option (Except YErr Out)
  | .ret r => some r
  | .release _ k => k.outcome
  | .remove _ k => (k (.ok ())).outcome
  | .put _ _ k => (k (.ok ())).outcome
  | .rename _ _ k => (k (.ok ())).outcome
  | _ => none

/-- An operation that changes something has been told everything. -/
def Prog.Sure : Prog → Prop
  | .put l buf k => (Prog.put l buf k).outcome ≠ none
  | .rename l name k => (Prog.rename l name k).outcome ≠ none
  | _ => True

abbrev Prog.AlwaysSure : Prog → Knowledge → Prop := Prog.Always (fun p _ => p.Sure)

section
variable {l i : ℕ} {K : Knowledge}

theorem sure_leave (l : ℕ) (r : Except YErr Out) (K : Knowledge) :
    (Prog.release l (.ret r)).AlwaysSure K := ⟨trivial, fun _ => trivial⟩

theorem sure_lock {k : Prog} (hk : ∀ K, k.AlwaysSure K) (K : Knowledge) :
    (Prog.lock l k).AlwaysSure K := by
  refine ⟨trivial, fun _ => ?_⟩
  dsimp only
  rw [if_neg (by simp)]
  exact hk _

theorem sure_fetch {k : Str → Prog} (hk : ∀ b K, (k b).AlwaysSure K) (K : Knowledge) :
    (Prog.fetch l k).AlwaysSure K :=
  ⟨trivial, fun b _ => hk b _, fun _ => sure_leave _ _ _⟩

theorem sure_openDir {k : Dir → Prog} (hk : ∀ d K, (k d).AlwaysSure K) (K : Knowledge) :
    (YfsClient.openDir l k).AlwaysSure K := by
  refine sure_lock (sure_fetch fun b K => ?_) K
  unfold Prog.parse
  split
  · exact trivial
  · exact hk _ K

theorem sure_alloc {mask : ℕ} {k : ℕ → Prog} (hk : ∀ i K, (k i).AlwaysSure K) (K : Knowledge) :
    (Prog.alloc mask k).AlwaysSure K :=
  ⟨trivial, fun i _ => ⟨trivial, fun _ => ⟨trivial, fun _ => trivial, hk i _⟩⟩⟩

theorem sure_put {buf : Str} {k : Except ExtErr Unit → Prog} (ho : (k (.ok ())).outcome ≠ none)
    (hk : ∀ K, (k (.ok ())).AlwaysSure K) (K : Knowledge) : (Prog.put l buf k).AlwaysSure K :=
  ⟨ho, fun _ => hk _⟩

theorem sure_release {k : Prog} (hk : ∀ K, k.AlwaysSure K) (K : Knowledge) :
    (Prog.release l k).AlwaysSure K := ⟨trivial, fun _ => hk _⟩

theorem sure_getattr {k : Except ExtErr Attr → Prog} (hk : ∀ r K, (k r).AlwaysSure K)
    (K : Knowledge) :
    (Prog.getattr l k).AlwaysSure K :=
  ⟨trivial, fun a _ _ _ => hk (.ok a) _, fun _ => hk (.error .noent) _⟩

theorem sure_addFile (p : ℕ) (name : Str) (d : Dir) (i : ℕ) (K : Knowledge) :
    (YfsClient.addFile p name d i).AlwaysSure K := by
  refine sure_put (by simp [Prog.outcome]) (fun K => ?_) K
  refine ⟨by simp [Prog.Sure, Prog.outcome], fun _ _ => ?_, fun _ => ?_⟩
  · exact sure_put (by simp [Prog.outcome]) (sure_release (sure_leave _ _)) _
  · exact sure_release (sure_leave _ _) _

theorem sure_addDir (p : ℕ) (name : Str) (d : Dir) (i : ℕ) (K : Knowledge) :
    (YfsClient.addDir p name d i).AlwaysSure K :=
  sure_put (by simp [Prog.outcome])
    (sure_put (by simp [Prog.outcome]) (sure_release (sure_leave _ _))) K

theorem sure_dropFile (p : ℕ) (name : Str) (d : Dir) (f : ℕ) (K : Knowledge) :
    (YfsClient.dropFile p name d f).AlwaysSure K := by
  refine ⟨trivial, fun _ => ?_⟩
  dsimp only
  rw [if_neg (by simp)]
  refine sure_put (by simp [Prog.outcome]) (sure_release (sure_release fun K => ?_)) _
  exact ⟨trivial, trivial⟩

theorem sure_setattr (ino : ℕ) (newSize : UInt32) (K : Knowledge) :
    (YfsClient.setattr ino newSize).AlwaysSure K := by
  refine sure_lock (sure_fetch fun b => sure_getattr fun r K => ?_) K
  cases r with
  | error e => exact sure_leave _ _ _
  | ok a =>
    dsimp only
    split
    · exact sure_put (by simp [Prog.outcome]) (sure_leave _ _) _
    · exact sure_leave _ _ _

theorem sure_op (op : Op) (K : Knowledge) : op.prog.AlwaysSure K := by
  cases op with
  | mount =>
    refine ⟨trivial, fun _ => ⟨trivial, fun b _ => sure_leave _ _ _,
      fun _ => ⟨trivial, fun _ => ?_⟩⟩⟩
    exact sure_put (by simp [Prog.outcome])
      (sure_put (by simp [Prog.outcome]) (sure_release (sure_leave _ _))) _
  | getfile ino =>
    refine sure_lock (sure_getattr fun r K => ?_) K
    cases r <;> exact sure_leave _ _ _
  | getdir ino => exact sure_lock (sure_getattr fun r K => sure_leave _ _ _) K
  | create p name =>
    refine sure_openDir (fun d K => ?_) K
    split_ifs
    · exact sure_leave _ _ _
    · exact sure_alloc (sure_addFile p name d) K
  | mkdir p name =>
    refine sure_openDir (fun d K => ?_) K
    split_ifs
    · exact sure_leave _ _ _
    · exact sure_alloc (sure_addDir p name d) K
  | unlink p name =>
    refine sure_openDir (fun d K => ?_) K
    split
    · exact sure_leave _ _ _
    · split_ifs
      · exact sure_dropFile p name d _ K
      · exact sure_leave _ _ _
  | lookup p name =>
    refine sure_openDir (fun d K => ?_) K
    split <;> exact sure_leave _ _ _
  | getdirContents ino => exact sure_openDir (fun d K => sure_leave _ _ _) K
  | setattr ino newSize => exact sure_setattr ino newSize K
  | read ino off size => exact sure_lock (sure_fetch fun b K => sure_leave _ _ _) K
  | write ino buf off size =>
    exact sure_lock (sure_fetch fun b => sure_put (by simp [Prog.outcome]) (sure_leave _ _)) K

/-- The constructor does not say what has become of it. -/
theorem mount_result : Op.mount.prog.Always (fun p _ => ∀ r, p.result = some r → r = .ok .done)
    (fun _ => none) := by
  have hleave : ∀ K, (Prog.release 1 (.ret (.ok .done))).Always
      (fun p _ => ∀ r, p.result = some r → r = .ok .done) K := by
    intro K
    refine ⟨?_, fun _ => ?_⟩ <;>
    · rintro r ⟨⟩
      rfl
  refine ⟨?_, fun _ => ⟨?_, fun b _ => hleave _, fun _ => ⟨?_, fun _ => ⟨?_, fun _ => ⟨?_, fun _ =>
    ⟨?_, fun _ => hleave _⟩⟩⟩⟩⟩⟩ <;>
  · rintro r ⟨⟩
    try rfl

end

/-- A number that an operation has given an extent and no name yet. -/
inductive Op.Ahead (op : Op) (i : ℕ) (p : Prog) (K : Knowledge) : Prop
  | making {buf} (h : op.Fresh i p K) (hk : K i = some (.content buf))
  | rooting {buf k} (hop : op = .mount) (hi : i = 1) (hp : p = .put 2 buf k)
      (h1 : K 1 = some (.content YfsClient.rootStr)) (h2 : K 2 = some .unread)

/-- The step with which a result is settled: the operation has been told it, or puts what it
does. -/
inductive Op.Settles (op : Op) : Prog → Knowledge → Act → Knowledge → Except YErr Out → Prop
  | reads {p w v a r} (hp : ∀ k, p ≠ .release op.main k) (hr : op.Reads v r)
      (hmount : op = .mount → r = .ok .done) (hput : ∀ l buf, a ≠ .put l buf (.ok ()))
      (hremove : ∀ l, a ≠ .remove l (.ok ())) :
      Settles op p (.only op.main w) a (.only op.main v) r
  | rewrites {b b' k} (hb : op.rewrites b = some b') :
      Settles op (.put op.main b' k) (.only op.main (.content b)) (.put op.main b' (.ok ()))
        (.only op.main (.content b')) (.ok .done)
  | makes {name mask buf b d i k} (hm : op.Making name mask buf b d) (hi : Drawn mask i)
      (hne : i ≠ op.main) :
      Settles op (.put op.main (Dir.toStr (d.insert name i)) k)
        (.both op.main (.content b) i (.content buf))
        (.put op.main (Dir.toStr (d.insert name i)) (.ok ()))
        (.both op.main (.content (Dir.toStr (d.insert name i))) i (.content buf)) (.ok (.inum i))
  | drops {name b d f k} (hd : op.Dropping name b d f) (hne : f ≠ op.main) :
      Settles op (.put op.main (Dir.toStr (d.erase name)) k) (.both op.main (.content b) f .unread)
        (.put op.main (Dir.toStr (d.erase name)) (.ok ()))
        (.both op.main (.content (Dir.toStr (d.erase name))) f .unread) (.ok .done)
  | mounts {k} (hop : op = .mount) :
      Settles op (.put 2 [58] k) (.both 1 (.content YfsClient.rootStr) 2 .unread)
        (.put 2 [58] (.ok ())) (.both 1 (.content YfsClient.rootStr) 2 (.content [58])) (.ok .done)

/-- Any other step before that: it changes nothing, or it makes an extent that has no name. -/
inductive Op.Prepares (op : Op) (p : Prog) (K : Knowledge) (a : Act) (p' : Prog)
    (K' : Knowledge) : Prop
  | quiet (hput : ∀ l buf, a ≠ .put l buf (.ok ())) (hremove : ∀ l, a ≠ .remove l (.ok ()))
      (hahead : ∀ i, op.Ahead i p' K' ↔ op.Ahead i p K)
  | ahead {l buf} (ha : a = .put l buf (.ok ())) (hk : K l = some .absent)
      (hahead : ∀ i, op.Ahead i p' K' ↔ i = l) (hbefore : ∀ i, ¬ op.Ahead i p K)

section
variable {op : Op} {p p' : Prog} {K K' : Knowledge} {a : Act} {l i j mask mask' : ℕ}
  {b buf buf' name name' : Str} {d d' : Dir} {w w' v v' : Know} {r : Except YErr Out}

theorem path_sure (h : Path op p K) : p.Sure := (always_path (sure_op op _) h).here

theorem mount_done (h : Path .mount p K) (hr : p.result = some r) : r = .ok .done :=
  (always_path mount_result h).here r hr

theorem both_eq (hi : i ≠ l) (hj : j ≠ l) (h : Knowledge.both l w i w' = .both l v j v') :
    i = j ∧ w = v ∧ w' = v' := by
  have hil := congrFun h i
  have hll := congrFun h l
  rw [both_first hi, both_first hj] at hll
  obtain rfl : i = j := by
    by_contra hne
    rw [both_self, Knowledge.both, Function.update_of_ne hne, only_of_ne hi] at hil
    cases hil
  rw [both_self, both_self] at hil
  exact ⟨rfl, Option.some.inj hll, Option.some.inj hil⟩

theorem both_ne_only (hi : i ≠ l) : Knowledge.both l w i w' ≠ .only l v := by
  intro h
  have := congrFun h i
  rw [both_self, only_of_ne hi] at this
  cases this

theorem both_ne_none : Knowledge.both l w i w' ≠ fun _ => none := by
  intro h
  have := congrFun h i
  rw [both_self] at this
  cases this

/-- The name is taken in what the operation has put. -/
theorem making_used (hm : op.Making name mask buf b d) (hplain : op.plain = true)
    (hi : Drawn mask i)
    (hm' : op.Making name' mask' buf' (Dir.toStr (d.insert name i)) d') : False := by
  have hparsed := hm'.parsed
  rw [parseDir_toStr (hm.linked_wf hplain hi)] at hparsed
  cases hparsed
  cases hm.makes.symm.trans hm'.makes
  have hunused := hm'.unused
  rw [dir_getElem_insert, if_pos rfl] at hunused
  cases hunused

/-- Where `create` and `mkdir` are that know their directory and their new extent. -/
theorem stands_pair (hst : op.Stands p (.both op.main (.content b) i (.content buf)))
    (hne : i ≠ op.main) (hm : op.makes ≠ none) (ho : p.outcome ≠ none) :
    op.Fresh i p (.both op.main (.content b) i (.content buf)) ∨
      p.result = some (.ok (.inum i)) ∧ ∃ name mask buf' b' d, op.Making name mask buf' b' d ∧
        Drawn mask i ∧ b = Dir.toStr (d.insert name i) := by
  generalize hK : Knowledge.both op.main (.content b) i (.content buf) = K at hst
  cases hst with
  | enter | ret => exact absurd hK both_ne_none
  | get | getattr | threw | leave | rewrite | draw | tryInum =>
    exact absurd hK (both_ne_only hne)
  | probe _ _ hne' => cases (both_eq hne hne' hK).2.2
  | reject => exact absurd rfl ho
  | fill _ _ hne' => cases (both_eq hne hne' hK).2.2
  | rename hm' hi hne' =>
    left
    obtain ⟨rfl,-,-⟩ := both_eq hne hne' hK
    exact .rename hm' hi hne'
  | link hm' hi hne' =>
    left
    obtain ⟨rfl,-,-⟩ := both_eq hne hne' hK
    exact .link hm' hi hne'
  | made hm' hi hne' =>
    right
    obtain ⟨rfl,heq,-⟩ := both_eq hne hne' hK
    cases heq
    exact ⟨rfl, _, _, _, _, _, hm', hi, rfl⟩
  | find hd | erase hd | erased hd | unlocked hd | remove hd =>
    rw [hd.unlinks] at hm
    exact absurd rfl hm
  | tmp hop | putRoot hop | putTmp hop | mounted hop =>
    rw [hop] at hm
    exact absurd rfl hm

theorem ahead_known (h : op.Ahead i p K) : (∃ buf, K i = some (.content buf)) ∧
    (∀ l k, p ≠ .release l k) ∧ p.result = none := by
  cases h with
  | making h hk =>
    refine ⟨⟨_, hk⟩, fun l k => fresh_not_release h l, ?_⟩
    obtain ⟨-,-,-,⟨_,_,rfl⟩ | ⟨_,_,rfl⟩ | ⟨_,_,rfl⟩⟩ := fresh_known h <;> rfl
  | rooting hop hi hp h1 h2 =>
    subst hi hp
    exact ⟨⟨_, h1⟩, by simp, rfl⟩

theorem ahead_only : ¬ op.Ahead i p (.only op.main w) := by
  rintro (⟨h,-⟩ | ⟨hop,-,-,-,h2⟩)
  · exact fresh_only h
  · rw [hop, only_of_ne (by simp [Op.main])] at h2
    cases h2

theorem ahead_both (h : op.Ahead j p (.both op.main w l w')) (hop : op ≠ .mount) :
    j = l ∧ ∃ buf, w' = .content buf := by
  obtain ⟨h,hk⟩ | ⟨hmount,-⟩ := h
  · obtain rfl := fresh_both h
    rw [both_self] at hk
    exact ⟨rfl, _, Option.some.inj hk⟩
  · exact absurd hmount hop

/-- There is no extent, or nothing is known of it. -/
theorem not_ahead (hop : op ≠ .mount) (hw : ∀ buf, w' ≠ .content buf) :
    ¬ op.Ahead j p (.both op.main w l w') := by
  intro h
  obtain ⟨-,buf,hbuf⟩ := ahead_both h hop
  exact hw buf hbuf

theorem ahead_start : ¬ op.Ahead i op.prog (fun _ => none) := by
  intro h
  obtain ⟨⟨buf,hk⟩,-⟩ := ahead_known h
  cases hk

theorem Op.Making.not_mount (h : op.Making name mask buf b d) : op ≠ .mount := by
  rintro rfl
  cases h.makes

theorem Op.Dropping.not_mount {f : ℕ} (h : op.Dropping name b d f) : op ≠ .mount := by
  rintro rfl
  cases h.unlinks

theorem Op.Dropping.not_makes {f : ℕ} (h : op.Dropping name b d f) : op.makes = none := by
  rw [h.unlinks]
  rfl

/-- Nothing is settled by a lock. -/
theorem unread_unsettled (hst : op.Stands p K) (hk : K op.main = some .unread) :
    p.result = none := by
  cases hst with
  | leave hr =>
    rw [only_self] at hk
    cases hk
    cases hr with
    | reads h => cases h
  | ret => cases hk
  | made hm hi hne =>
    rw [both_first hne] at hk
    cases hk
  | erased hd hne =>
    rw [both_first hne] at hk
    cases hk
  | unlocked => simp at hk
  | remove => cases hk
  | mounted hop =>
    subst hop
    cases hk
  | _ => rfl

/-- A number that is not known to be that of an extent is not ahead. -/
theorem prepares_lock (hput : ∀ l buf, a ≠ .put l buf (.ok ()))
    (hremove : ∀ l, a ≠ .remove l (.ok ()))
    (h : ∀ i, ¬ op.Ahead i p K) (h' : ∀ i, ¬ op.Ahead i p' K') : op.Prepares p K a p' K' :=
  .quiet hput hremove (fun i => iff_of_false (h' i) (h i))

/-- The steps of `create` and `mkdir` before their directory has the name. -/
theorem making_prepares (hplain : op.plain = true) (hpath : Path op p K)
    (hp : p.step a = some p') (hl : Learns K a K') (hst' : op.Stands p' K') (hK : op.Fresh i p K)
    (hlink : ∀ buf k, p ≠ .put op.main buf k) :
    p'.result = none ∧ op.Prepares p K a p' K' := by
  have hsure := path_sure hpath
  cases hK with
  | @fill name mask buf b d k hm hi hne =>
    cases step_steps hp
    cases hl
    rw [update_both] at hst' ⊢
    rcases stands_pair hst' hne (by simp [hm.makes]) hsure with hf | ⟨-,_,_,_,_,_,hm',hi',rfl⟩
    · have hahead : op.Ahead i _ _ := .making hf both_self
      refine ⟨(ahead_known hahead).2.2, .ahead rfl both_self (fun j => ?_) (fun j h => ?_)⟩
      · constructor
        · intro h
          exact (ahead_both h hm.not_mount).1
        · rintro rfl
          exact hahead
      · exact not_ahead hm.not_mount (by simp) h
    · exact (making_used hm' hplain hi' hm).elim
  | @rename name mask buf b d k hm hi hne =>
    cases step_steps hp
    cases hl with
    | rename hk =>
      obtain rfl : _ = buf := by simpa [eq_comm] using hk
      rw [update_both] at hst' ⊢
      rcases stands_pair hst' hne (by simp [hm.makes]) hsure with hf | ⟨-,_,_,_,_,_,hm',hi',rfl⟩
      · have hahead : op.Ahead i _ _ := .making hf both_self
        refine ⟨(ahead_known hahead).2.2, .quiet (by simp) (by simp) (fun j => ?_)⟩
        constructor
        · intro h
          obtain rfl := (ahead_both h hm.not_mount).1
          exact .making (.rename hm hi hne) both_self
        · intro h
          obtain rfl := (ahead_both h hm.not_mount).1
          exact hahead
      · exact (making_used hm' hplain hi' hm).elim
    | renameNone hk => simp at hk
  | link => exact absurd rfl (hlink _ _)

/-- Where an operation that has two locks can be settled. -/
theorem pair_settled (hst : op.Stands p (.both op.main (.content b) i w)) (hne : i ≠ op.main)
    (hr : p.result ≠ none) :
    (∃ name mask buf b' d, op.Making name mask buf b' d ∧ Drawn mask i ∧
      b = Dir.toStr (d.insert name i)) ∨
    (∃ name b' d, op.Dropping name b' d i ∧ b = Dir.toStr (d.erase name)) ∨ op = .mount := by
  generalize hK : Knowledge.both op.main (.content b) i w = K at hst
  cases hst with
  | enter | ret | remove => exact absurd hK both_ne_none
  | get | getattr | threw | leave | rewrite | draw | tryInum | find | unlocked =>
    exact absurd hK (both_ne_only hne)
  | probe | reject | fill | rename | link | erase => exact absurd rfl hr
  | made hm hi hne' =>
    left
    obtain ⟨rfl,heq,-⟩ := both_eq hne hne' hK
    cases heq
    exact ⟨_, _, _, _, _, hm, hi, rfl⟩
  | erased hd hne' =>
    right
    left
    obtain ⟨rfl,heq,-⟩ := both_eq hne hne' hK
    cases heq
    exact ⟨_, _, _, hd, rfl⟩
  | tmp hop | putRoot hop | putTmp hop | mounted hop => exact Or.inr (Or.inr hop)

theorem making_unsettled (hm : op.Making name mask buf b d) (hplain : op.plain = true)
    (hst : op.Stands p (.both op.main (.content b) i w)) (hne : i ≠ op.main) : p.result = none := by
  by_contra hr
  obtain ⟨_,_,_,_,_,hm',hi,rfl⟩ | ⟨_,_,_,hd,-⟩ | hop := pair_settled hst hne hr
  · exact making_used hm' hplain hi hm
  · have := hm.makes
    rw [hd.not_makes] at this
    cases this
  · exact hm.not_mount hop

theorem dropping_unsettled {f : ℕ} (hd : op.Dropping name b d f)
    (hst : op.Stands p (.both op.main (.content b) f w)) (hne : f ≠ op.main) : p.result = none := by
  by_contra hr
  obtain ⟨_,_,_,_,_,hm,-⟩ | ⟨name',b',d',hd',rfl⟩ | hop := pair_settled hst hne hr
  · have := hm.makes
    rw [hd.not_makes] at this
    cases this
  · -- the directory still has the name
    have hparsed := hd.parsed
    rw [parseDir_toStr ((parseDir_wf hd'.parsed).erase name')] at hparsed
    cases hparsed
    cases hd.unlinks.symm.trans hd'.unlinks
    have hentry := hd.entry
    rw [dir_getElem_erase, if_pos rfl] at hentry
    cases hentry
  · exact hd.not_mount hop

theorem mount_settled (hst : Op.mount.Stands p K) (h2 : K 2 = some (.content buf)) :
    p.result = some (.ok .done) := by
  cases hst with
  | enter | ret | remove => cases h2
  | get | getattr | threw | leave | rewrite | draw | tryInum | find | unlocked | tmp =>
    rw [only_of_ne (by simp [Op.main])] at h2
    cases h2
  | probe hm | reject hm | fill hm | rename hm | link hm | made hm => exact absurd rfl hm.not_mount
  | erase hd | erased hd => exact absurd rfl hd.not_mount
  | putRoot | putTmp =>
    rw [both_self] at h2
    cases h2
  | mounted => rfl

theorem mount_ahead (h : Op.mount.Ahead i p K) :
    i = 1 ∧ K 1 = some (.content YfsClient.rootStr) := by
  cases h with
  | making hf => exact absurd rfl (fresh_makes hf)
  | rooting _ hi _ h1 => exact ⟨hi, h1⟩

/-- A step of an operation that is not settled. -/
theorem settles_or (hpath : Path op p K) (hplain : op.plain = true) (hp : p.step a = some p')
    (hl : Learns K a K') (h : p.result = none) :
    (∃ r, p'.result = some r ∧ op.Settles p K a K' r) ∨ p'.result = none ∧
    op.Prepares p K a p' K' := by
  have hpath' := hpath.step hp hl
  have hst' := path_stands hpath'
  -- what is settled by an answer about the first extent
  have hread : ∀ {w v}, (∀ k, p ≠ .release op.main k) → (∀ r, p'.result = some r → op.Reads v r) →
      K = .only op.main w → K' = .only op.main v → (∀ l buf, a ≠ .put l buf (.ok ())) →
      (∀ l, a ≠ .remove l (.ok ())) → (∃ r, p'.result = some r ∧ op.Settles p K a K' r) ∨
        p'.result = none ∧ op.Prepares p K a p' K' := by
    rintro w v hrel hr rfl rfl hput hremove
    rcases hr' : p'.result with _ | r
    · exact Or.inr ⟨rfl, prepares_lock hput hremove (fun _ => ahead_only) (fun _ => ahead_only)⟩
    · refine Or.inl ⟨r, rfl, .reads hrel (hr r hr') ?_ hput hremove⟩
      rintro rfl
      exact mount_done hpath' hr'
  cases path_stands hpath with
  | enter =>
    right
    cases step_steps hp
    cases hl
    refine ⟨unread_unsettled hst' (Function.update_self _ _ _), ?_⟩
    refine prepares_lock (by simp) (by simp) (fun i hi => ?_) (fun i => ahead_only (w := .unread))
    obtain ⟨⟨buf,hk⟩,-⟩ := ahead_known hi
    cases hk
  | get hk hn =>
    cases step_steps hp
    cases hl with
    | get => exact hread (by simp) (hk _) rfl update_only (by simp) (by simp)
    | getNone => exact hread (by simp) hn rfl update_only (by simp) (by simp)
  | getattr hk hn =>
    cases step_steps hp
    cases hl with
    | getattr _ hs =>
      exact hread (by simp) (fun r => hk _ _ r hs) rfl update_only (by simp) (by simp)
    | getattrNone => exact hread (by simp) hn rfl update_only (by simp) (by simp)
  | threw | ret => cases hp
  | leave | made | mounted => cases h
  | erased _ _ hk | unlocked _ _ hk | remove _ _ hk =>
    simp only [Prog.result, hk] at h
    cases h
  | rewrite hb hk =>
    left
    cases step_steps hp
    cases hl
    rw [hk, update_only]
    exact ⟨_, rfl, .rewrites hb⟩
  | draw =>
    right
    cases step_steps hp
    cases hl
    exact ⟨rfl, prepares_lock (by simp) (by simp) (fun _ => ahead_only) (fun _ => ahead_only)⟩
  | tryInum hm hi =>
    right
    cases step_steps hp
    cases hl with
    | acquire hnone =>
      refine ⟨making_unsettled hm hplain hst' (ne_of_only hnone), ?_⟩
      exact prepares_lock (by simp) (by simp) (fun _ => ahead_only)
        (fun _ => not_ahead hm.not_mount (by simp))
  | probe hm hi hne hk =>
    right
    cases step_steps hp
    cases hl with
    | get =>
      rw [hk]
      exact ⟨rfl, prepares_lock (by simp) (by simp) (fun _ => not_ahead hm.not_mount (by simp))
        (fun j hj => (ahead_known hj).2.1 _ _ rfl)⟩
    | getNone =>
      rw [update_both] at hst' ⊢
      refine ⟨making_unsettled hm hplain hst' hne, ?_⟩
      exact prepares_lock (by simp) (by simp) (fun _ => not_ahead hm.not_mount (by simp))
        (fun _ => not_ahead hm.not_mount (by simp))
  | reject hm hi hne =>
    right
    cases step_steps hp
    cases hl
    refine ⟨rfl, prepares_lock (by simp) (by simp) (fun j hj => (ahead_known hj).2.1 _ _ rfl) ?_⟩
    rw [both_release hne]
    exact fun _ => ahead_only
  | fill hm hi hne =>
    right
    refine making_prepares hplain hpath hp hl hst' (.fill hm hi hne) ?_
    rintro _ _ ⟨⟩
    exact hne rfl
  | rename hm hi hne =>
    right
    exact making_prepares hplain hpath hp hl hst' (.rename hm hi hne) (by simp)
  | link hm hi hne =>
    left
    have hsure := path_sure hpath
    cases step_steps hp
    cases hl
    rw [both_put hne] at hst' ⊢
    rcases stands_pair hst' hne (by simp [hm.makes]) hsure with hf | ⟨hr,-⟩
    · obtain ⟨_,_,_,_,_,hm',hb'⟩ := fresh_unused hf
      rw [both_first hne] at hb'
      cases hb'
      exact (making_used hm hplain hi hm').elim
    · exact ⟨_, hr, .makes hm hi hne⟩
  | find hd =>
    right
    cases step_steps hp
    cases hl with
    | acquire hnone =>
      refine ⟨dropping_unsettled hd hst' (ne_of_only hnone), ?_⟩
      exact prepares_lock (by simp) (by simp) (fun _ => ahead_only)
        (fun _ => not_ahead hd.not_mount (by simp))
  | erase hd hne hk hk' =>
    left
    cases step_steps hp
    cases hl
    rw [both_put hne, hk]
    exact ⟨.ok .done, by simp [Prog.result, hk'], .drops hd hne⟩
  | tmp hop =>
    right
    subst hop
    cases step_steps hp
    cases hl
    refine ⟨?_, prepares_lock (by simp) (by simp) (fun _ => ahead_only) (fun j hj => ?_)⟩
    · obtain ⟨_,_,hput⟩ | ⟨_,_,hput⟩ := mount_unread hst' (Function.update_self _ _ _) <;>
      · rw [hput]
        rfl
    · have h1 := (mount_ahead hj).2
      rw [Function.update_of_ne (by simp), only_self] at h1
      cases h1
  | putRoot hop =>
    right
    subst hop
    cases step_steps hp
    cases hl
    rw [both_put (by simp)] at hst' ⊢
    have h1 : Knowledge.both 1 (.content YfsClient.rootStr) 2 .unread 1 =
        some (.content YfsClient.rootStr) := both_first (by simp)
    obtain ⟨buf,k,hput⟩ := mount_put hst' (by simp [h1]) both_self
    rw [hput]
    refine ⟨rfl, .ahead rfl (both_first (by simp)) (fun j => ?_) (fun j hj => ?_)⟩
    · constructor
      · intro hj
        exact (mount_ahead hj).1
      · rintro rfl
        exact .rooting rfl rfl rfl h1 both_self
    · have habsent := (mount_ahead hj).2
      rw [both_first (by simp)] at habsent
      cases habsent
  | putTmp hop =>
    left
    subst hop
    cases step_steps hp
    cases hl
    rw [update_both] at hst' ⊢
    exact ⟨_, mount_settled hst' both_self, .mounts rfl⟩

end

end DisconnectedYfs.YFS
