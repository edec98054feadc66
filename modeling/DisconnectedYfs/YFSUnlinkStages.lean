import DisconnectedYfs.YFSContents

/-! The stages of `unlink` after it has the lock of the file. -/
namespace DisconnectedYfs.YFS
open Std

/-- The extent that an operation is going to remove, once it has come that far. -/
def Prog.removes : Prog → Option ℕ
  | .remove l _ => some l
  | .release _ k => k.removes
  | .put _ _ k => (k (.ok ())).removes
  | _ => none

/-- An `unlink` that has the lock of `f`, or has had it, and is going to remove the extent. -/
inductive Op.Removing (op : Op) (f : ℕ) : Prog → Knowledge → Prop
  | erase {name b d k k'} (hd : op.Dropping name b d f) (hne : f ≠ op.main)
      (hk : k (.ok ()) = .release f (.release op.main (.remove f k'))) :
      Removing op f (.put op.main (Dir.toStr (d.erase name)) k)
        (.both op.main (.content b) f .unread)
  | erased {name b d k} (hd : op.Dropping name b d f) (hne : f ≠ op.main) :
      Removing op f (.release f (.release op.main (.remove f k)))
        (.both op.main (.content (Dir.toStr (d.erase name))) f .unread)
  | unlocked {name b d k} (hd : op.Dropping name b d f) (hne : f ≠ op.main)
      (hk : k (.ok ()) = .ret (.ok .done)) :
      Removing op f (.release op.main (.remove f k))
        (.only op.main (.content (Dir.toStr (d.erase name))))
  | remove {name b d k} (hd : op.Dropping name b d f) : Removing op f (.remove f k) (fun _ => none)

section
variable {op : Op} {p p' : Prog} {K K' : Knowledge} {a : Act} {f mask : ℕ}
    {name b buf : Str} {d : Dir}

theorem Op.Making.not_unlink (h : op.Making name mask buf b d) (l : ℕ) (name' : Str) :
    op ≠ .unlink l name' := by
  rintro rfl
  cases h.makes

theorem both_self_ne {l i j : ℕ} {k k' : Know} (hl : j ≠ l) (h : Knowledge.both l k i k' j ≠ none) :
    j = i := by
  by_contra hij
  apply h
  rw [Knowledge.both, Function.update_of_ne hij]
  exact only_of_ne hl

/-- What such an operation is, and what it still knows. -/
theorem removing_known (h : op.Removing f p K) : (∃ name, op = .unlink op.main name) ∧
    (f ≠ op.main ∧ K f = some .unread ∧ (∃ b, K op.main = some (.content b)) ∨
      (∃ b, K = .only op.main (.content b)) ∧ p.result = some (.ok .done) ∨
      K = fun _ => none) := by
  cases h with
  | @erase name b d k k' hd hne hk =>
    exact ⟨⟨name, hd.unlinks⟩, Or.inl ⟨hne, both_self, b, both_first hne⟩⟩
  | @erased name b d k hd hne =>
    exact ⟨⟨name, hd.unlinks⟩, Or.inl ⟨hne, both_self, _, both_first hne⟩⟩
  | @unlocked name b d k hd hne hk =>
    refine ⟨⟨name, hd.unlinks⟩, Or.inr (Or.inl ⟨⟨_, rfl⟩, ?_⟩)⟩
    simp [Prog.result, hk]
  | @remove name b d k hd => exact ⟨⟨name, hd.unlinks⟩, Or.inr (Or.inr rfl)⟩

/-- An answer about its own directory does not take `unlink` there. -/
theorem removing_not_read {w : Know} (hw : ∀ b r, w = .content b → p.result = some r →
    op.Reads w r) : ¬ op.Removing f p (.only op.main w) := by
  intro h
  obtain ⟨⟨name,hop⟩,⟨hne,hk,-⟩ | ⟨⟨b,hb⟩,hr⟩ | hnone⟩ := removing_known h
  · rw [only_of_ne hne] at hk
    cases hk
  · have hwb : w = .content b := by
      have := congrFun hb op.main
      rw [only_self, only_self] at this
      exact Option.some.inj this
    have hread := hw b _ hwb hr
    rw [hop] at hread
    cases hread
  · have := congrFun hnone op.main
    rw [only_self] at this
    cases this

theorem removing_removes (h : op.Removing f p K) : p.removes = some f := by
  cases h with
  | erase _ _ hk => simp [Prog.removes, hk]
  | erased | unlocked | remove => rfl

theorem removing_file {f' : ℕ} {k : Except ExtErr Unit → Prog}
    (h : op.Removing f (.release f' (.release op.main (.remove f' k))) K) : f = f' := by
  cases h
  rfl

/-- How `unlink` comes to these stages: by the lock of the file. -/
theorem removing_back (hst : op.Stands p K) (hp : p.step a = some p') (hl : Learns K a K')
    (h : op.Removing f p' K') : op.Removing f p K ∨
      (∃ name, op = .unlink op.main name) ∧ ∃ k, p = .acquire f k := by
  obtain ⟨⟨name,hop⟩,hknown⟩ := removing_known h
  cases hst with
  | enter =>
    cases step_steps hp
    cases hl
    refine absurd h (removing_not_read (w := .unread) ?_)
    simp
  | get hk hn =>
    cases step_steps hp
    cases hl with
    | @get _ b =>
      rw [update_only] at h
      refine absurd h (removing_not_read fun b' r hb' hr => ?_)
      exact hk b r hr
    | getNone =>
      rw [update_only] at h
      exact absurd h (removing_not_read fun b' r hb' hr => hn r hr)
  | getattr hk hn =>
    cases step_steps hp
    cases hl with
    | getattr _ hs =>
      rw [update_only] at h
      exact absurd h (removing_not_read fun b' r hb' hr => hk _ _ r hs hr)
    | getattrNone =>
      rw [update_only] at h
      exact absurd h (removing_not_read fun b' r hb' hr => hn r hr)
  | threw | ret => cases hp
  | leave =>
    cases step_steps hp
    cases h
  | rewrite hb =>
    rw [hop] at hb
    cases hb
  | draw hm | tryInum hm | probe hm | reject hm | fill hm | rename hm | link hm | made hm =>
    exact absurd hop (hm.not_unlink _ _)
  | @find name' b d f' k hd =>
    cases step_steps hp
    cases hl with
    | acquire hk =>
      have hne := ne_of_only hk
      obtain ⟨hne',hk',-⟩ | ⟨⟨b',hb'⟩,-⟩ | hnone := hknown
      · have hb' : Knowledge.both op.main (.content b) f' .unread f ≠ none := by
          intro hn
          rw [Knowledge.both] at hn
          rw [hn] at hk'
          cases hk'
        obtain rfl := both_self_ne hne' hb'
        exact Or.inr ⟨⟨name', hd.unlinks⟩, k, rfl⟩
      · have := congrFun hb' f'
        rw [Function.update_self, only_of_ne hne] at this
        cases this
      · have := congrFun hnone f'
        rw [Function.update_self] at this
        cases this
  | erase hd hne hk hk' =>
    cases step_steps hp
    cases hl
    rw [hk] at h
    obtain rfl := removing_file h
    exact Or.inl (.erase hd hne hk)
  | erased hd hne hk =>
    cases step_steps hp
    cases h
    · exact Or.inl (.erased hd hne)
  | unlocked hd hne hk =>
    cases step_steps hp
    cases h
    exact Or.inl (.unlocked hd hne hk)
  | remove hd hne hk =>
    cases step_steps hp
    cases hl
    rw [hk] at h
    cases h
  | tmp hm | putRoot hm | putTmp hm | mounted hm =>
    rw [hop] at hm
    cases hm

theorem removing_isfile (h : op.Removing f p K) : isfile f = true := by
  cases h with
  | erase hd | erased hd | unlocked hd | remove hd => exact hd.file

/-- Only `unlink` gives a lock back without having read the extent. -/
theorem release_removing {k : Prog} (h : op.Stands (.release f k) K) (hk : K f = some .unread) :
    op.Removing f (.release f k) K := by
  generalize hp : Prog.release f k = p at h
  cases h <;> cases hp
  case leave w r hr =>
    rw [only_self] at hk
    cases hk
    cases hr with
    | reads h => cases h
  case erased _ hd hne => exact .erased hd hne
  all_goals simp at hk

theorem remove_removing {k : Except ExtErr Unit → Prog} (h : op.Stands (.remove f k) K) :
    op.Removing f (.remove f k) K := by
  generalize hp : Prog.remove f k = p at h
  cases h <;> cases hp
  case remove hd _ _ => exact .remove hd

end

end DisconnectedYfs.YFS
