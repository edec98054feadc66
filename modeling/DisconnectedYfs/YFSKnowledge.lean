import DisconnectedYfs.YFSCallEffects

/-! What an operation knows of the extents whose locks it holds. Everything it has been told about
them stays true while it holds them, whatever the other clients do; so the operation can be
followed by its calls and answers alone. -/
namespace DisconnectedYfs.YFS
open Std

/-- The lock is between `acquire` and `release`, with or without its extent being loaded. -/
def Thread.Has (th : Thread) (l : ℕ) : Prop :=
  (∃ r, (l, r) ∈ th.held) ∨ ∃ read buf op, .load l read buf op ∈ th.calls

section
variable {v v' : LockView} {k : LockEvent} {s s' : Sys} {e : Event} {A T l : ℕ}

/-- While a thread has a lock, what others do leaves the extent and the thread's copy alone. -/
theorem holder_frame {r : Role} (hg : Good v) (hon : v.Online) (hk : k.Connected)
    (h : LockStep k v v') (hA : ∀ kind, k ≠ .party A kind)
    (ha : (v.party A).agent = some (.thread T, r))
    (hr : (∃ read, r = .holding read) ∨ ∃ read buf, r = .loading read buf) :
    (v'.party A).copy = (v.party A).copy ∧ v'.extent = v.extent := by
  have howns : (v.party A).Owns := by
    obtain ⟨h1,h2⟩ := hon A
    obtain ⟨read,rfl⟩ | ⟨read,buf,rfl⟩ := hr <;> simp [Party.Owns, ha, h1, h2]
  have howner := (hg.owner A).mpr howns
  have hset : ∀ B p, p.copy = (v.party B).copy →
      ((v.setParty B p).party A).copy = (v.party A).copy := by
    intro B p hp
    rw [setParty_party]
    split_ifs with hB
    · rw [hB, hp]
    · rfl
  cases h with
  | @party _ B k p x hp =>
    have hB : A ≠ B := by
      rintro rfl
      exact hA k rfl
    refine ⟨?_, ?_⟩
    · show ((v.setParty B p).party A).copy = _
      rw [setParty_party, if_neg hB]
    · obtain hx | ho := partyStep_extent hp
      · exact hx
      · exact absurd ho (others_not_own hg howner B hB.symm)
  | @grant _ B T' ha' ho => exact ⟨hset B _ rfl, rfl⟩
  | @wait _ B T' o ha' ho hw => exact ⟨hset B _ rfl, rfl⟩
  | @firstWait _ B T' o ha' ho hw => exact ⟨hset B _ rfl, rfl⟩
  | @revokeBusy _ B T' o hm hs =>
    refine ⟨?_, rfl⟩
    simp only [LockView.setAgent, setMark_party, setParty_party]
    split_ifs with h1 h2 h3 <;> simp_all
  | @revokeFree _ B T' o cp x hm ho hx =>
    have hmem : (o, Phase.sent) ∈ v.mark B T' := by simp [hm]
    have hoA := Option.some.inj ((hg.sent B T' o hmem).1.symm.trans howner)
    rw [hoA] at ho
    rw [ho] at ha
    cases ha
  | @release _ B T' ha' ho => exact ⟨hset B _ rfl, rfl⟩
  | @handlerRelease _ B T' o ha' ho => exact ⟨hset o _ rfl, rfl⟩
  | @revoked _ B T' o ha' hB =>
    refine ⟨?_, rfl⟩
    simp only [LockView.setAgent, setMark_party, setParty_party]
    split_ifs with h1 h2 h3 <;> simp_all
  | @retry _ B st hp hs => exact ⟨hset B _ rfl, rfl⟩
  | @disconnect _ B ho => exact absurd rfl (hk.1 B)
  | @disconnectOther _ B ho => exact absurd rfl (hk.1 B)

theorem Thread.Has.role {th : Thread} (h : th.Has l) :
    ∃ r ∈ th.roles l, (∃ read, r = .holding read) ∨ ∃ read buf, r = .loading read buf := by
  obtain ⟨read,hm⟩ | ⟨read,buf,op,hm⟩ := h
  · refine ⟨.holding read, List.mem_append_right _ ?_, Or.inl ⟨read, rfl⟩⟩
    exact List.mem_map.mpr ⟨(l, read), List.mem_filter.mpr ⟨hm, by simp⟩, rfl⟩
  · refine ⟨.loading read buf, List.mem_append_left _ ?_, Or.inr ⟨read, buf, rfl⟩⟩
    exact List.mem_flatMap.mpr ⟨_, hm, by simp⟩

theorem held_frame (hs : s.Ordered) (he : ∀ A, e ≠ .disconnect A) (h : s.step e = some s')
    (hA : ∀ T m, e ≠ .client A T m) (hl : (s.thread A T).Has l) :
    (s'.client A).localExtent[l]? = (s.client A).localExtent[l]? ∧ s'.table[l]? = s.table[l]? := by
  obtain ⟨g,ht,ho⟩ := hs.lock l
  obtain ⟨g',-,-,heq | ⟨k,hk,hc,hls⟩⟩ := hs.progress he h ht ho
  · exact ⟨congrArg (fun v => (v.party A).copy) heq, congrArg LockView.extent heq⟩
  · obtain ⟨r,hr,hrole⟩ := hl.role
    have hgA := (agents_single (ht.agents A) rfl hr).1
    refine holder_frame ho.good ho.online hc hls ?_ hgA hrole
    rintro kind rfl
    obtain ⟨T',m,heq,-⟩ := hk
    exact hA T' m heq

end

/-- Of an extent whose lock is held: nothing yet, that there is none, or what it holds. -/
inductive Know where
  | unread | absent
  | content (buf : Str)
deriving DecidableEq, Repr

/-- `none` for a lock that is not held. -/
abbrev Knowledge := ℕ → Option Know

/-- What an answered call adds, for the answers that are possible while the client is connected. -/
inductive Learns (K : Knowledge) : Act → Knowledge → Prop
  | acquire {l} (h : K l = none) :
      Learns K (.acquire l .ok) (Function.update K l (some .unread))
  | release {l} (h : K l ≠ none) : Learns K (.release l) (Function.update K l none)
  | get {l buf} (h : K l = some .unread ∨ K l = some (.content buf)) :
      Learns K (.get l (.ok buf)) (Function.update K l (some (.content buf)))
  | getNone {l} (h : K l = some .unread ∨ K l = some .absent) :
      Learns K (.get l (.error .noent)) (Function.update K l (some .absent))
  | getattr {l a buf} (h : K l = some .unread ∨ K l = some (.content buf))
      (hs : a.size = byteSize buf) :
      Learns K (.getattr l (.ok a)) (Function.update K l (some (.content buf)))
  | getattrNone {l} (h : K l = some .unread ∨ K l = some .absent) :
      Learns K (.getattr l (.error .noent)) (Function.update K l (some .absent))
  | put {l buf} (h : K l ≠ none) :
      Learns K (.put l buf (.ok ())) (Function.update K l (some (.content buf)))
  | rename {l name buf} (h : K l = some .unread ∨ K l = some (.content buf)) :
      Learns K (.rename l name (.ok ())) (Function.update K l (some (.content buf)))
  | renameNone {l name} (h : K l = some .unread ∨ K l = some .absent) :
      Learns K (.rename l name (.error .noent)) (Function.update K l (some .absent))
  | remove {l} :
      Learns K (.remove l (.ok ())) (Function.update K l ((K l).map (fun _ => .unread)))
  | draw {a b} : Learns K (.draw a b) K

/-- `p` is what is left of `op` when it knows `K`. -/
inductive Path (op : Op) : Prog → Knowledge → Prop
  | start : Path op op.prog (fun _ => none)
  | step {p p' K K' a} (h : Path op p K) (hp : p.step a = some p') (hk : Learns K a K') :
      Path op p' K'

/-- A lock is held without anything being known of the extent from its acquisition on, or since the
extent has been removed. -/
theorem learns_unread {K K' : Knowledge} {a : Act} {l : ℕ} (h : Learns K a K')
    (hl : K' l = some .unread) :
    K l = some .unread ∨ a = .acquire l .ok ∨ a = .remove l (.ok ()) := by
  have hne : ∀ {j : ℕ} {w : Option Know}, w ≠ some .unread →
      Function.update K j w l = some .unread → K l = some .unread := by
    intro j w hw hk
    rw [Function.update_apply] at hk
    split_ifs at hk
    · exact absurd hk hw
    · exact hk
  cases h with
  | @acquire j hj =>
    by_cases hjl : l = j
    · exact Or.inr (Or.inl (by rw [hjl]))
    · rw [Function.update_of_ne hjl] at hl
      exact Or.inl hl
  | @remove j =>
    by_cases hjl : l = j
    · exact Or.inr (Or.inr (by rw [hjl]))
    · rw [Function.update_of_ne hjl] at hl
      exact Or.inl hl
  | draw => exact Or.inl hl
  | _ => exact Or.inl (hne (by simp) hl)

/-- The thread holds the locks of `K` and what `K` says is so. -/
structure Local.Agrees (x : Local) (K : Knowledge) : Prop where
  held : ∀ l, (∃ r, (l, r) ∈ x.th.held) ↔ K l ≠ none
  absent : ∀ l, K l = some .absent → x.cache[l]? = none ∧ x.table[l]? = none
  content : ∀ l buf, K l = some (.content buf) → ∃ e, x.cache[l]? = some e ∧ e.extent = buf

section
variable {x y : Local} {K : Knowledge} {l : ℕ}

theorem Local.Agrees.of_held (h : x.Agrees K) (hth : ∀ l, (∃ r, (l, r) ∈ y.th.held) ↔
      ∃ r, (l, r) ∈ x.th.held)
    (hcache : ∀ l, K l ≠ none → y.cache[l]? = x.cache[l]? ∧ y.table[l]? = x.table[l]?) :
    y.Agrees K := by
  refine ⟨fun l => (hth l).trans (h.held l), ?_, ?_⟩
  · intro l hl
    rw [(hcache l (by simp [hl])).1, (hcache l (by simp [hl])).2]
    exact h.absent l hl
  · intro l buf hl
    rw [(hcache l (by simp [hl])).1]
    exact h.content l buf hl

/-- One lock is taken, given back or learned about; nothing else changes. -/
theorem Local.Agrees.update (h : x.Agrees K) (k : Option Know)
    (hth : ∀ l', l' ≠ l → ((∃ r, (l', r) ∈ y.th.held) ↔ ∃ r, (l', r) ∈ x.th.held))
    (hl : (∃ r, (l, r) ∈ y.th.held) ↔ k ≠ none)
    (hcache : ∀ l', l' ≠ l → y.cache[l']? = x.cache[l']? ∧ y.table[l']? = x.table[l']?)
    (hab : k = some .absent → y.cache[l]? = none ∧ y.table[l]? = none)
    (hco : ∀ buf, k = some (.content buf) → ∃ e, y.cache[l]? = some e ∧ e.extent = buf) :
    y.Agrees (Function.update K l k) := by
  refine ⟨fun l' => ?_, fun l' hk => ?_, fun l' buf hk => ?_⟩
  · by_cases hll : l' = l
    · subst hll
      rw [Function.update_self]
      exact hl
    · rw [Function.update_of_ne hll]
      exact (hth l' hll).trans (h.held l')
  · by_cases hll : l' = l
    · subst hll
      rw [Function.update_self] at hk
      exact hab hk
    · rw [Function.update_of_ne hll] at hk
      rw [(hcache l' hll).1, (hcache l' hll).2]
      exact h.absent l' hk
  · by_cases hll : l' = l
    · subst hll
      rw [Function.update_self] at hk
      exact hco buf hk
    · rw [Function.update_of_ne hll] at hk
      rw [(hcache l' hll).1]
      exact h.content l' buf hk

theorem mem_drop {th : Thread} {l l' : ℕ} {r : Bool} :
    (l', r) ∈ th.drop l ↔ (l', r) ∈ th.held ∧ l' ≠ l := by
  simp [Thread.drop]

theorem section_mem {th : Thread} {r : Bool} (h : th.section? l = some r) : (l, r) ∈ th.held := by
  unfold Thread.section? at h
  obtain ⟨l₁,l₂,hl,-⟩ := List.lookup_eq_some_iff.mp h
  simp [hl]

/-- The section stays, marked as read. -/
theorem mem_read {th : Thread} {r : Bool} (h : th.section? l = some r) (l' : ℕ) :
    (∃ r, (l', r) ∈ (l, true) :: th.drop l) ↔ ∃ r, (l', r) ∈ th.held := by
  constructor
  · rintro ⟨r',hr⟩
    rcases List.mem_cons.mp hr with heq | hr
    · cases heq
      exact ⟨r, section_mem h⟩
    · exact ⟨r', (mem_drop.mp hr).1⟩
  · rintro ⟨r',hr⟩
    by_cases hl : l' = l
    · subst hl
      exact ⟨true, by simp⟩
    · exact ⟨r', List.mem_cons_of_mem _ (mem_drop.mpr ⟨hr, hl⟩)⟩

/-- `attr.size` is the length of the contents, as an `unsigned int`. -/
def Entry.Sized (e : Entry) : Prop := e.attr.size = byteSize e.extent

/-- A cached extent is read: the operation learns its contents. -/
theorem access_learns {c : Client} {p : Prog} {op : Access} {e : Entry}
    (hm : p.move = some (.access l op)) (he : c.localExtent[l]? = some e) (hs : e.Sized)
    (hk : K l = some .unread ∨ K l = some (.content e.extent)) :
    Learns K (c.answer p) (Function.update K l (some (.content e.extent))) := by
  cases p with
  | get l k =>
    cases hm
    simp only [Client.answer, he]
    exact .get hk
  | getattr l k =>
    cases hm
    simp only [Client.answer, he]
    exact .getattr hk hs
  | rename l name k =>
    cases hm
    simp only [Client.answer, he]
    exact .rename hk
  | _ => cases hm

theorem access_learns_none {c : Client} {p : Prog} {op : Access}
    (hm : p.move = some (.access l op)) (he : c.localExtent[l]? = none)
    (hk : K l = some .unread ∨ K l = some .absent) :
    Learns K (c.answer p) (Function.update K l (some .absent)) := by
  cases p with
  | get l k =>
    cases hm
    simp only [Client.answer, he]
    exact .getNone hk
  | getattr l k =>
    cases hm
    simp only [Client.answer, he]
    exact .getattrNone hk
  | rename l name k =>
    cases hm
    simp only [Client.answer, he]
    exact .renameNone hk
  | _ => cases hm

/-- What is known of a lock that is held, given what the cache and the server have. -/
theorem Local.Agrees.cases (h : x.Agrees K) (hl : K l ≠ none) :
    K l = some .unread ∨ (K l = some .absent ∧ x.cache[l]? = none ∧ x.table[l]? = none) ∨
      ∃ e, K l = some (.content e.extent) ∧ x.cache[l]? = some e := by
  rcases hk : K l with _ | k
  · exact absurd hk hl
  · cases k with
    | unread => exact Or.inl rfl
    | absent => exact Or.inr (Or.inl ⟨rfl, h.absent l hk⟩)
    | content buf =>
      obtain ⟨e,he,rfl⟩ := h.content l buf hk
      exact Or.inr (Or.inr ⟨e, rfl, he⟩)

/-- `unlinking` is the file that the operation will still remove. -/
def Thread.Owes (th : Thread) (p : Prog) : Prop :=
  th.unlinking ≠ none → p.pending = th.unlinking

theorem Thread.Owes.none {th : Thread} {p : Prog} (h : th.Owes p) (hp : p.pending = none) :
    th.unlinking = none := by
  by_contra hn
  exact hn ((h hn).symm.trans hp)

/-- The call that `p` makes has been answered: the operation knows more. -/
def Answered (K : Knowledge) (p : Prog) (c : Client) (t : Table) : Prop :=
  (c.thread 0).calls = [] ∧ ∃ K', Learns K (c.answer p) K' ∧ (c.localAt t 0).Agrees K' ∧
    ∀ p', p.step (c.answer p) = some p' → (c.thread 0).Owes p'

/-- The call that `p` makes is under way. -/
inductive InCall (K : Knowledge) (p : Prog) (x : Local) : Prop
  | acquiring {l k pc} (hp : p = .acquire l k) (hc : x.th.calls = [.acquire l pc])
      (ha : x.Agrees K) (hu : x.th.unlinking = none)
  | releasing {l k pc} (hp : p = .release l k) (hc : x.th.calls = [.release l pc])
      (hk : K l ≠ none) (ha : x.Agrees (Function.update K l none)) (hu : x.th.Owes k)
  | loading {l op read buf} (hm : p.move = some (.access l op))
      (hc : x.th.calls = [.load l read buf op]) (hk : K l = some .unread)
      (ha : x.Agrees (Function.update K l none)) (hu : x.th.unlinking = none)

/-- The thread begins to release a lock. -/
theorem drop_agrees {th : Thread} (h : x.Agrees K) (hth : th.held = x.th.drop l) :
    Local.Agrees ⟨th, x.cache, x.table⟩ (Function.update K l none) := by
  refine h.update none ?_ ?_ (fun _ _ => ⟨rfl, rfl⟩) (by simp) (by simp)
  · intro l' hl'
    simp only [hth, mem_drop]
    exact ⟨fun ⟨r,hr,_⟩ => ⟨r, hr⟩, fun ⟨r,hr⟩ => ⟨r, hr, hl'⟩⟩
  · simp [hth, mem_drop]

theorem Local.Agrees.holds (h : x.Agrees K) {r : Bool} (hs : x.th.section? l = some r) :
    K l ≠ none :=
  (h.held l).mp ⟨r, section_mem hs⟩

variable {p : Prog} {c' : Client} {t' : Table} {now : UInt32} {m : Move}

theorem finish_entry (op : Access) (m : Cache) (l l' : ℕ) (now : UInt32) :
    (l' ≠ l → (op.finish m l now)[l']? = m[l']?) ∧
    ∀ e, m[l]? = some e → ∃ e', (op.finish m l now)[l]? = some e' ∧ e'.extent = e.extent ∧
      e'.attr.size = e.attr.size := by
  cases op with
  | get =>
    simp only [Access.finish, cache_touch_getElem]
    refine ⟨fun h => ?_, fun e he => ?_⟩
    · simp [Ne.symm h]
    · simp [he]
  | getattr => exact ⟨fun _ => rfl, fun e he => ⟨e, he, rfl, rfl⟩⟩
  | rename name =>
    simp only [Access.finish, cache_setName_getElem]
    refine ⟨fun h => ?_, fun e he => ?_⟩
    · simp [Ne.symm h]
    · simp [he]

theorem access_answered {op : Access} {e : Entry} (hm : p.move = some (.access l op))
    (hk : K l = some .unread ∨ K l = some (.content e.extent))
    (hc : (c'.thread 0).calls = []) (hu : (c'.thread 0).unlinking = none)
    (he : c'.localExtent[l]? = some e) (hs : e.Sized)
    (ha : (c'.localAt t' 0).Agrees (Function.update K l (some (.content e.extent)))) :
    Answered K p c' t' :=
  ⟨hc, _, access_learns hm he hs hk, ha, fun _ _ hn => absurd hu hn⟩

/-- A call is answered at once, or is under way. -/
theorem call_does (ha : x.Agrees K) (hu : x.th.Owes p)
    (hsize : ∀ (l : ℕ) (e : Entry), x.cache[l]? = some e → e.Sized) (hm : p.move = some m)
    (hc : x.th.calls = [])
    (h : Does now x m (c'.localAt t' 0)) : Answered K p c' t' ∨ InCall K p (c'.localAt t' 0) := by
  generalize hy : c'.localAt t' 0 = y at h
  have hth : c'.thread 0 = y.th := by rw [← hy]; rfl
  have hcache : c'.localExtent = y.cache := by rw [← hy]; rfl
  have ht : t' = y.table := by rw [← hy]; rfl
  cases h with
  | @callAcquire l _ hun =>
    right
    cases p with
    | acquire l' k =>
      cases hm
      exact .acquiring rfl rfl (ha.of_held (fun _ => Iff.rfl) (fun _ _ => ⟨rfl, rfl⟩)) rfl
    | _ => cases hm
  | @acquiring _ _ _ _ hc' | @acquired _ _ _ hc' | @flushed _ _ _ _ _ hc' | @released _ _ _ hc'
  | @loaded _ _ _ _ _ hc' =>
    rw [hc] at hc'
    cases hc'
  | @callRelease l unlink read _ hs =>
    right
    cases p with
    | release l' k =>
      cases hm
      refine .releasing rfl rfl (ha.holds hs) (drop_agrees ha rfl) ?_
      intro hn
      dsimp only at hn ⊢
      split_ifs at hn ⊢ with hk
      · simpa using hk
      · exact hu hn
    | _ => cases hm
  | @hit l op read e _ hun hs he =>
    left
    obtain ⟨hother,hself⟩ := finish_entry op x.cache l l now
    obtain ⟨e',he',hext,hsz⟩ := hself e he
    refine access_answered hm ?_ (by rw [hth]) (by rw [hth]) (by rw [hcache]; exact he') ?_ ?_
    · rw [hext]
      rcases ha.cases (ha.holds hs) with hk | ⟨-,hn,-⟩ | ⟨e₀,hk,he₀⟩
      · exact Or.inl hk
      · rw [he] at hn
        cases hn
      · rw [he] at he₀
        cases he₀
        exact Or.inr hk
    · unfold Entry.Sized
      rw [hext, hsz]
      exact hsize l e he
    · rw [hy]
      refine ha.update _ (fun l' _ => mem_read hs l') ?_ ?_ (by simp) ?_
      · exact iff_of_true ⟨true, by simp⟩ (by simp)
      · intro l' hl'
        exact ⟨(finish_entry op x.cache l l' now).1 hl', rfl⟩
      · intro buf hbuf
        cases hbuf
        exact ⟨e', he', rfl⟩
  | @miss l op read _ hun hs he htab =>
    left
    refine ⟨by rw [hth], _, access_learns_none hm (by rw [hcache]; exact he) ?_, ?_, ?_⟩
    · rcases ha.cases (ha.holds hs) with hk | ⟨hk,-,-⟩ | ⟨e₀,-,he₀⟩
      · exact Or.inl hk
      · exact Or.inr hk
      · rw [he] at he₀
        cases he₀
    · rw [hy]
      refine ha.update _ (fun l' _ => mem_read hs l') ?_ (fun _ _ => ⟨rfl, rfl⟩)
        (fun _ => ⟨he, htab⟩)
        (by simp)
      exact iff_of_true ⟨true, by simp⟩ (by simp)
    · intro p' _ hn
      rw [hth] at hn
      exact absurd rfl hn
  | @fetching l op read f _ hun hs he htab =>
    right
    refine .loading hm rfl ?_ (drop_agrees ha rfl) rfl
    rcases ha.cases (ha.holds hs) with hk | ⟨-,-,hn⟩ | ⟨e₀,-,he₀⟩
    · exact hk
    · rw [htab] at hn
      cases hn
    · rw [he] at he₀
      cases he₀
  | @put l buf read _ hun hs =>
    left
    cases p with
    | put l' buf' k =>
      cases hm
      refine ⟨by rw [hth]; exact hc, _, .put (ha.holds hs), ?_, ?_⟩
      · rw [hy]
        obtain ⟨e,he,-,hext,-⟩ := cache_put_self x.cache l buf now
        refine ha.update _ (fun _ _ => Iff.rfl) ?_ ?_ (by simp) ?_
        · exact iff_of_true ⟨read, section_mem hs⟩ (by simp)
        · intro l' hl'
          exact ⟨cache_put_other x.cache buf now hl'.symm, rfl⟩
        · intro buf' hbuf
          cases hbuf
          exact ⟨e, he, hext⟩
      · intro p' _ hn
        rw [hth] at hn
        exact absurd hun hn
    | _ => cases hm
  | @removed l e _ hun he =>
    left
    cases p with
    | remove l' k =>
      cases hm
      refine ⟨by rw [hth], _, .remove, ?_, ?_⟩
      · rw [hy]
        refine ha.update _ (fun _ _ => Iff.rfl) ?_ ?_ ?_ ?_
        · exact (ha.held l).trans Option.map_eq_none_iff.not.symm
        · intro l' hl'
          simp [hl'.symm]
        · intro hk
          simp at hk
        · intro buf hk
          simp at hk
      · intro p' _ hn
        rw [hth] at hn
        exact absurd rfl hn
    | _ => cases hm

/-- A call under way goes on, or is answered. -/
theorem inCall_does (hin : InCall K p x) (hone : ∀ l, ((c'.thread 0).roles l).length ≤ 1)
    (hsize : ∀ (l : ℕ) (f : FInfo), x.table[l]? = some f → f.a.size = byteSize f.buf)
    (hbuf : ∀ l read buf op, x.th.calls = [.load l read buf op] →
      (x.table[l]?).map FInfo.buf = some buf)
    (h : Does now x m (c'.localAt t' 0)) : Answered K p c' t' ∨ InCall K p (c'.localAt t' 0) := by
  generalize hy : c'.localAt t' 0 = y at h
  have hth : c'.thread 0 = y.th := by rw [← hy]; rfl
  have hcache : c'.localExtent = y.cache := by rw [← hy]; rfl
  have ht : t' = y.table := by rw [← hy]; rfl
  cases hin with
  | @acquiring l k pc hp hc ha hu =>
    cases h with
    | @acquiring _ l' pc₀ pc' hc' =>
      rw [hc] at hc'
      cases hc'
      exact Or.inr (.acquiring hp rfl (ha.of_held (fun _ => Iff.rfl) (fun _ _ => ⟨rfl, rfl⟩)) hu)
    | @acquired _ l' pc₀ hc' =>
      rw [hc] at hc'
      cases hc'
      subst hp
      have hk : K l = none := by
        by_contra hk
        obtain ⟨r,hr⟩ := (ha.held l).mpr hk
        have h1 := hone l
        have h2 : Role.holding r ∈ holdRoles x.th.held l :=
          List.mem_map.mpr ⟨(l, r), List.mem_filter.mpr ⟨hr, by simp⟩, rfl⟩
        have h3 := List.length_pos_of_mem h2
        rw [hth] at h1
        simp only [Thread.roles, stackRoles_nil, List.nil_append, holdRoles_cons, if_pos,
          List.length_append, List.length_singleton] at h1
        omega
      refine Or.inl ⟨by rw [hth], Function.update K l (some .unread), ?_, ?_, ?_⟩
      · have : (c'.thread 0).section? l = some false := by
          rw [hth]
          simp [Thread.section?]
        simp only [Client.answer, this]
        exact .acquire hk
      · rw [hy]
        refine ha.update _ ?_ ?_ (fun _ _ => ⟨rfl, rfl⟩) (by simp) (by simp)
        · intro l' hl'
          simp [hl']
        · exact iff_of_true ⟨false, by simp⟩ (by simp)
      · intro p' _ hn
        rw [hth] at hn
        exact absurd hu hn
    | @callAcquire _ hc' _ | @callRelease _ _ _ hc' _ | @flushed _ _ _ _ _ hc' _
        | @released _ _ _ hc'
    | @hit _ _ _ _ hc' _ _ _ | @miss _ _ _ hc' _ _ _ _ | @fetching _ _ _ _ hc' _ _ _ _
    | @loaded _ _ _ _ _ hc' _ | @put _ _ _ hc' _ _ | @removed _ _ hc' _ _ =>
      rw [hc] at hc'
      cases hc'
  | @releasing l k pc hp hc hk ha hu =>
    cases h with
    | @flushed _ _ l' cache table hc' hf =>
      rw [hc] at hc'
      cases hc'
      refine Or.inr (.releasing hp rfl hk (ha.of_held (fun _ => Iff.rfl) ?_) hu)
      intro l' hl'
      have hne : l ≠ l' := by
        rintro rfl
        exact hl' (Function.update_self l none K)
      rcases cache_flush_cases hf with ⟨-,rfl,rfl⟩ | ⟨e,-,-,rfl,hput⟩ | ⟨e,-,-,rfl,rfl⟩
      · simp [hne]
      · exact ⟨by simp [hne], table_put_other hput hne⟩
      · simp [hne]
    | @released _ l' pc₀ hc' =>
      rw [hc] at hc'
      cases hc'
      subst hp
      refine Or.inl ⟨by rw [hth], _, .release hk, ?_, ?_⟩
      · rw [hy]
        exact ha.of_held (fun _ => Iff.rfl) (fun _ _ => ⟨rfl, rfl⟩)
      · intro p' hp'
        rw [hth]
        simp only [Prog.step, Client.answer, if_pos] at hp'
        cases hp'
        exact hu
    | @callAcquire _ hc' _ | @callRelease _ _ _ hc' _ | @acquiring _ _ _ _ hc' | @acquired _ _ _ hc'
    | @hit _ _ _ _ hc' _ _ _ | @miss _ _ _ hc' _ _ _ _ | @fetching _ _ _ _ hc' _ _ _ _
    | @loaded _ _ _ _ _ hc' _ | @put _ _ _ hc' _ _ | @removed _ _ hc' _ _ =>
      rw [hc] at hc'
      cases hc'
  | @loading l op read buf hm hc hk ha hu =>
    cases h with
    | @loaded l' op' read' buf' f hc' hf =>
      rw [hc] at hc'
      cases hc'
      have hb : f.buf = buf := by simpa [hf] using hbuf l read buf op hc
      obtain ⟨e,he,hext,hsz⟩ := (finish_entry op (x.cache.load l buf f.a) l l now).2
        ⟨false, buf, f.a⟩ (by simp [Cache.load])
      refine Or.inl (access_answered hm (Or.inl hk) (by rw [hth]) (by rw [hth]; exact hu)
        (by rw [hcache]; exact he) ?_ ?_)
      · unfold Entry.Sized
        rw [hext, hsz, ← hb]
        exact hsize l f hf
      · rw [hy]
        have hupd := Function.update_idem (none : Option Know) (some (.content e.extent)) K (a := l)
        rw [← hupd]
        refine ha.update _ ?_ ?_ ?_ (by simp) ?_
        · intro l' hl'
          simp [hl']
        · exact iff_of_true ⟨true, by simp⟩ (by simp)
        · intro l' hl'
          refine ⟨?_, rfl⟩
          dsimp only
          rw [(finish_entry op (x.cache.load l buf f.a) l l' now).1 hl']
          simp [Cache.load, hl'.symm]
        · intro buf' hbuf'
          cases hbuf'
          exact ⟨e, he, rfl⟩
    | @callAcquire _ hc' _ | @callRelease _ _ _ hc' _ | @acquiring _ _ _ _ hc' | @acquired _ _ _ hc'
    | @hit _ _ _ _ hc' _ _ _ | @miss _ _ _ hc' _ _ _ _ | @fetching _ _ _ _ hc' _ _ _ _
    | @flushed _ _ _ _ _ hc' _ | @released _ _ _ hc' | @put _ _ _ hc' _ _ | @removed _ _ hc' _ _ =>
      rw [hc] at hc'
      cases hc'

end

end DisconnectedYfs.YFS
