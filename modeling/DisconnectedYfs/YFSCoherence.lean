import DisconnectedYfs.YFSMutualExclusion
import DisconnectedYfs.YFSStaleWrite

/-! Cache coherence: while no client disconnects and nothing is removed, every `get` returns what
was put last. -/
namespace DisconnectedYfs.YFS
open Std

/-- The buffer of the last `put` on the extent. -/
def lastPut (l : ℕ) (es : List Event) : Option Str :=
  es.foldl (fun last e =>
    match e with
    | .client _ _ (.put lid buf) => if lid = l then some buf else last
    | _ => last) none

/-- The extent and the result of the `get` that an event ends; `none` is `NOENT`. -/
def Sys.returned (s : Sys) : Event → Option (ℕ × Option Str)
  | .client A _ (.access lid .get) =>
    match (s.client A).localExtent[lid]? with
    | some c => some (lid, some c.extent)
    | none => if s.table[lid]? = none then some (lid, none) else none
  | .client A T .loadAttr =>
    match (s.thread A T).calls with
    | [.load lid _ buf .get] => some (lid, some buf)
    | _ => none
  | _ => none

/-- No client disconnects, nothing is removed, and a section reads the extent before it writes it.
A section also reads the extent before it ends, unless the client has it cached or the server does
not have it: to leave without a copy is the other way to remove an extent. -/
def Sys.coherent (s : Sys) : Event → Bool
  | .disconnect _ | .client _ _ (.unlinkRemove _) => false
  | .client A T (.put lid _) => (s.thread A T).section? lid ≠ some false
  | .client A T (.callRelease lid _) => (s.thread A T).section? lid ≠ some false ||
      (s.client A).localExtent[lid]?.isSome || s.table[lid]?.isNone
  | _ => true

abbrev CoherentRun (es : List Event) : Prop :=
  TraceSystem.Meets Sys.step (fun s e => s.coherent e = true) Sys.init es

/-- The owner's copy is what was put last; without a copy, the server has it. A client that is done
with a section and has no copy knows that there is no extent. -/
structure Party.Latest (p : Party) (x : Option FInfo) (last : Option Str) : Prop where
  cached : ∀ e, p.copy = some e → last = some e.extent
  clean : ∀ e, p.copy = some e → e.dirty = false → x.map FInfo.buf = some e.extent
  uncached : p.copy = none → last = x.map FInfo.buf
  loading : ∀ T read buf, p.agent = some (.thread T, .loading read buf) →
    p.copy = none ∧ x.map FInfo.buf = some buf
  ended : p.agent = none ∨ (∃ T, p.agent = some (.thread T, .leaving)) → p.copy = none → x = none

structure LockView.Latest (v : LockView) (last : Option Str) : Prop where
  owner : ∀ A, v.owner = some A → (v.party A).Latest v.extent last
  free : v.owner = none → last = v.extent.map FInfo.buf

section
variable {v v' : LockView} {k : LockEvent} {last : Option Str}

/-- What a flush of the last value leaves at the server. -/
theorem latest_flush {p : Party} {x x' : Option FInfo} (h : Flushes p.copy x x')
    (hl : p.Latest x last) (hc : p.copy = none → x = none) : last = x'.map FInfo.buf := by
  obtain ⟨hn,rfl⟩ | ⟨e,he,hd,rfl⟩ | ⟨e,f,he,hd,rfl,hb,-⟩ := h
  · rw [hl.uncached hn, hc hn]
  · rw [hl.cached e he, hl.clean e he hd]
  · rw [hl.cached e he, ← hb]
    rfl

/-- The steps by which nothing is written or removed. -/
def Kind.reading (p : Party) (x : Option FInfo) : Kind → Prop
  | .resolve | .unlinked | .rejoin | .wrote _ _ => False
  | .quit read => read = true ∨ p.copy ≠ none ∨ x = none
  | _ => True

def LockEvent.reading (v : LockView) : LockEvent → Prop
  | .party A k => k.reading (v.party A) v.extent
  | .disconnect _ => False
  | _ => True

theorem latest_partyStep {k : Kind} {p p' : Party} {x x' : Option FInfo}
    (h : PartyStep k p x p' x') (hl : p.Latest x last) (hcur : p.Current x) (ho : p.Owns)
    (hst : p.stale = false) (hk : k.reading p x) : p'.Latest x' last := by
  cases h
  case flush hf =>
    refine ⟨by simp, by simp, ?_, by simp, by simp⟩
    intro _
    exact latest_flush hf hl (hl.ended (by simp))
  case take hr | grant hr | grantRevoked hr =>
    obtain ⟨rfl,rfl⟩ | ⟨rfl,rfl⟩ := hr
    · exact ⟨hl.cached, hl.clean, hl.uncached, by simp, by simp⟩
    · cases hk
  case grantStale | conflict | forget => cases hst
  case reconnect => cases ho.1
  case done => cases ho.2
  case leave read =>
    refine ⟨hl.cached, hl.clean, hl.uncached, by simp, ?_⟩
    intro _ hn
    obtain rfl | h | h := hk
    · exact hcur.known ho hst (by simp) hn
    · exact absurd hn h
    · exact h
  case free => exact ⟨hl.cached, hl.clean, hl.uncached, by simp, fun _ => hl.ended (by simp)⟩
  case read hsame =>
    obtain ⟨hd,hb,-⟩ := hsame
    refine ⟨?_, ?_, by simp, by simp, by simp⟩
    · rintro e he
      cases he
      rw [hb]
      exact hl.cached _ rfl
    · rintro e he hclean
      cases he
      rw [hb]
      exact hl.clean _ rfl (hd ▸ hclean)
  case load =>
    refine ⟨by simp, by simp, hl.uncached, ?_, by simp⟩
    intro T read buf ha
    simp only [Option.some.injEq, Prod.mk.injEq, Role.loading.injEq] at ha
    simp [ha]
  case loaded e f T read buf hd hb hv =>
    obtain ⟨hn,hx⟩ := hl.loading T read buf rfl
    have hlast := hl.uncached hn
    rw [hx, ← hb] at hlast
    refine ⟨?_, ?_, by simp, by simp, by simp⟩
    · rintro e' he
      cases he
      exact hlast
    · rintro e' he _
      cases he
      rw [hx, hb]
  case drop | resolved | touch | fetch | probed | copy | put | unlinkRemove => cases hk
  all_goals exact ⟨hl.cached, hl.clean, hl.uncached, by simp, by simp⟩

/-- A step in which the owner and its copy stay. -/
theorem latest_same (hl : v.Latest last) (howner : v'.owner = v.owner) (hx : v'.extent = v.extent)
    (hp : ∀ C, v.owner = some C →
      (v'.party C).copy = (v.party C).copy ∧ (v'.party C).agent = (v.party C).agent) :
    v'.Latest last := by
  constructor
  · intro C hC
    rw [howner] at hC
    obtain ⟨h1,h2⟩ := hp C hC
    obtain ⟨l1,l2,l3,l4,l5⟩ := hl.owner C hC
    rw [hx]
    constructor <;> (try rw [h1]) <;> (try rw [h2]) <;> assumption
  · intro hC
    rw [howner] at hC
    rw [hx]
    exact hl.free hC

theorem latest_step (hg : Good v) (hon : v.Online) (hcur : v.Current) (hl : v.Latest last)
    (hk : k.reading v) (h : LockStep k v v') : v'.Latest last := by
  -- a client that is waiting or asking is not the owner
  have hne : ∀ {A C}, ¬ (v.party A).Owns → v.owner = some C → C ≠ A := by
    intro A C hno hC hCA
    subst hCA
    exact hno ((hg.owner C).mp hC)
  cases h with
  | @party _ A k p x hp =>
    constructor
    · intro C hC
      have hC' : v.owner = some C := hC
      simp only [setParty_party]
      split_ifs with hCA
      · subst hCA
        exact latest_partyStep hp (hl.owner C hC') (hcur C) ((hg.owner C).mp hC') (hon C).2 hk
      · obtain rfl | ho := partyStep_extent hp
        · exact hl.owner C hC'
        · exact absurd ho (others_not_own hg hC' A (Ne.symm hCA))
    · intro hn
      have hn' : v.owner = none := hn
      obtain rfl | ho := partyStep_extent hp
      · exact hl.free hn'
      · rw [(hg.owner A).mpr ho] at hn'
        cases hn'
  | @grant _ A T ha ho =>
    refine ⟨?_, by simp⟩
    intro C hC
    obtain rfl : A = C := Option.some.inj hC
    have hcopy : (v.party A).copy = none := by
      by_contra hne
      obtain h | h | h := (hcur A).kept hne
      · rw [(hon A).2] at h; cases h
      · rw [(hon A).1] at h; cases h
      · simp [Party.Owns, ha] at h
    have hlast := hl.free ho
    simp only [LockView.setAgent, setParty_party, if_true]
    constructor <;> simp [hcopy, hlast]
  | @wait _ A T o ha ho hw | @firstWait _ A T o ha ho hw =>
    refine latest_same hl rfl rfl ?_
    intro C hC
    have := hne (A := A) (by simp [Party.Owns, ha]) hC
    simp [LockView.setAgent, this]
  | @revokeBusy _ B T o hm hs =>
    have hB := (hg.marked B T o .sent (by simp [hm])).2
    refine latest_same hl rfl rfl ?_
    intro C hC
    have hCB := hne (A := B) (by simp [Party.Owns, hB]) hC
    simp only [LockView.setAgent, setMark_party, setParty_party, if_neg hCB]
    split_ifs with hCo
    · rw [hCo]
      exact ⟨rfl, rfl⟩
    · exact ⟨rfl, rfl⟩
  | @revokeFree _ B T o cp x hm hp hf =>
    have ho := (hg.sent B T o (by simp [hm])).1
    have hlo := hl.owner o ho
    have hcopy : (v.party o).copy = cp := by rw [hp]
    refine ⟨?_, fun hn => ?_⟩
    · intro C hC
      have hC' : v.owner = some C := hC
      rw [ho] at hC'
      obtain rfl := Option.some.inj hC'
      simp only [setMark_party, setParty_party, if_true]
      refine ⟨by simp, by simp, fun _ => ?_, by simp, by simp⟩
      exact latest_flush (p := v.party o) (hcopy ▸ hf) hlo (hlo.ended (Or.inl (by rw [hp])))
    · have hn' : v.owner = none := hn
      rw [ho] at hn'
      cases hn'
  | @release _ A T ha ho =>
    refine ⟨fun C hC => (by cases hC), fun _ => ?_⟩
    exact (hl.owner A ho).uncached ((hcur A).flushed _ _ ha (by simp))
  | @handlerRelease _ B T o ha ho =>
    refine ⟨fun C hC => (by cases hC), fun _ => ?_⟩
    exact (hl.owner o ho).uncached ((hcur o).flushed _ _ ha (by simp))
  | @revoked _ B T o ha hB =>
    refine latest_same hl rfl rfl ?_
    intro C hC
    have hCB := hne (A := B) (by simp [Party.Owns, hB]) hC
    have hCo := hne (A := o) (by simp [Party.Owns, ha]) hC
    simp [LockView.setAgent, hCB, hCo]
  | @retry _ B s hp hs =>
    refine latest_same hl rfl rfl ?_
    intro C hC
    simp only [setParty_party]
    split_ifs with hCB
    · rw [hCB]
      exact ⟨rfl, rfl⟩
    · exact ⟨rfl, rfl⟩
  | disconnect | disconnectOther => cases hk

end

/-- What holds of each lock along a coherent run. -/
structure LockView.Coherent (v : LockView) (last : Option Str) : Prop where
  online : v.Online
  peaceful : v.Peaceful
  current : v.Current
  latest : v.Latest last

section
variable {s s' : Sys} {e : Event} {A T l : ℕ} {g g' : ℕ → Option (Agent × Role)} {k : LockEvent}
  {last : ℕ → Option Str} {buf : Str}

/-- No thread is in the conflict branch. -/
theorem no_resolve (hs : ∀ l, ∃ g, s.Tracks l g ∧ Good (s.view l g) ∧
    (s.view l g).Coherent (last l))
    {n : ℕ} {stage : Stage} (h : .resolve n stage ∈ (s.thread A T).calls) : False := by
  obtain ⟨g,ht,-,hc⟩ := hs n
  exact no_resolving ht hc.peaceful h

theorem coherent_reading
    (hs : ∀ l, ∃ g, s.Tracks l g ∧ Good (s.view l g) ∧ (s.view l g).Coherent (last l))
    (hc : s.coherent e = true)
    (hre : ∀ A T, (s.thread A T).calls.any Call.reconnects = false)
    (hput : ∀ A T buf, e ≠ .client A T (.put l buf))
    (hk : Accounts s e l k) : k.reading (s.view l g) := by
  cases k with
  | party A k =>
    obtain ⟨T,m,rfl,hm⟩ := hk
    cases k with
    | resolve =>
      obtain ⟨n,stage,hmem⟩ := hm
      exact no_resolve hs hmem
    | unlinked =>
      obtain rfl := hm
      cases hc
    | rejoin =>
      have hm' : (s.thread A T).calls.any Call.reconnects = true := hm
      rw [hre A T] at hm'
      cases hm'
    | wrote read buf =>
      obtain ⟨rfl,-⟩ := hm
      exact hput A T buf rfl
    | quit read =>
      obtain ⟨unlink,rfl,hsec⟩ | ⟨n,stage,hmem⟩ := hm
      · have hsec' : (s.thread A T).section? l = some read := hsec
        simp only [Sys.coherent, hsec', Bool.or_eq_true, decide_eq_true_eq] at hc
        obtain (h | h) | h := hc
        · exact Or.inl (by simpa using h)
        · exact Or.inr (Or.inl (Option.isSome_iff_ne_none.mp h))
        · exact Or.inr (Or.inr (Option.isNone_iff_eq_none.mp h))
      · exact (no_resolve hs hmem).elim
    | plain | conflict | left => trivial
  | disconnect A =>
    obtain rfl := hk
    cases hc
  | _ => trivial

theorem coherent_careful (hc : s.coherent e = true) (hon : (s.view l g).Online)
    (hk : Accounts s e l k) : k.careful (s.view l g) := by
  cases k with
  | party A k =>
    obtain ⟨T,m,rfl,hm⟩ := hk
    cases k with
    | wrote read buf =>
      obtain ⟨rfl,hsec⟩ := hm
      have hread : (s.thread A T).section? l ≠ some false := by simpa [Sys.coherent] using hc
      have hsec' : (s.thread A T).section? l = some read := hsec
      rw [hsec'] at hread
      change read = true
      simpa using hread
    | unlinked =>
      obtain rfl := hm
      cases hc
    | _ => trivial
  | revoke o => exact (hon o).2
  | _ => trivial

end

theorem lastPut_put (l : ℕ) (es : List Event) (A T lid : ℕ) (buf : Str) :
    lastPut l (es ++ [.client A T (.put lid buf)]) = if lid = l then some buf
      else lastPut l es := by
  simp only [lastPut, List.foldl_append, List.foldl_cons, List.foldl_nil]

theorem lastPut_other (l : ℕ) (es : List Event) (e : Event)
    (h : ∀ A T buf, e ≠ .client A T (.put l buf)) : lastPut l (es ++ [e]) = lastPut l es := by
  simp only [lastPut, List.foldl_append, List.foldl_cons, List.foldl_nil]
  split
  · rename_i A T lid buf
    rw [if_neg]
    rintro rfl
    exact h A T buf rfl
  · rfl

section
variable {s s' : Sys} {A T l : ℕ} {g g' : ℕ → Option (Agent × Role)} {buf : Str}

/-- What a `put` of the application does. -/
theorem step_put (h : s.step (.client A T (.put l buf)) = some s') :
    (∃ read, (s.thread A T).section? l = some read) ∧
      s' = s.setClient A ((s.client A).setCache ((s.client A).localExtent.put l buf s.now)) := by
  rcases hsec : ((s.client A).thread T).section? l with _ | read
  · simp [Sys.step, Client.move, hsec] at h
  · simp only [Sys.step, Client.move, hsec] at h
    split_ifs at h
    cases h
    exact ⟨⟨read, hsec⟩, rfl⟩

theorem section_holds {th : Thread} {read : Bool} (h : th.section? l = some read) : th.Holds l := by
  obtain ⟨p,hp,-⟩ := List.mem_map.mp (holdRoles_of_section h)
  obtain ⟨hm,hl⟩ := List.mem_filter.mp hp
  obtain ⟨n,r⟩ := p
  obtain rfl : n = l := by simpa using hl
  exact Or.inl ⟨r, hm⟩

/-- The owner writes, and keeps its section. -/
theorem latest_put (ht : s.Tracks l g) (hg : Good (s.view l g)) (hon : (s.view l g).Online)
    (h : s.step (.client A T (.put l buf)) = some s') (ht' : s'.Tracks l g') :
    (s'.view l g').Latest (some buf) := by
  obtain ⟨⟨read,hsec⟩,rfl⟩ := step_put h
  have howner := holder_owns ht hg hon (section_holds hsec)
  have hclient := client_setClient s A A
    ((s.client A).setCache ((s.client A).localExtent.put l buf s.now))
  rw [if_pos rfl] at hclient
  have hagent := ht'.agents A
  rw [hclient] at hagent
  obtain ⟨hgA,-⟩ := section_self (T := T) hagent hsec
  obtain ⟨c,hc,hd,hb,-⟩ := cache_put_self (s.client A).localExtent l buf s.now
  constructor
  · intro C hC
    obtain rfl : A = C := by
      change (s.lockTable.info l).owner = some C at hC
      rw [howner] at hC
      exact Option.some.inj hC
    have hcopy : (((s.setClient A ((s.client A).setCache
        ((s.client A).localExtent.put l buf s.now))).view l g').party A).copy = some c := by
      simp only [Sys.view, Client.party, hclient]
      exact hc
    have hag : (((s.setClient A ((s.client A).setCache
        ((s.client A).localExtent.put l buf s.now))).view l g').party A).agent =
        some (.thread T, .holding read) := hgA
    constructor <;> simp [hcopy, hag, hb, hd]
  · intro hn
    change (s.lockTable.info l).owner = none at hn
    rw [howner] at hn
    cases hn

end

theorem latest_init : LockView.init.Latest none := by
  constructor <;> simp [LockView.init]

/-- Where no client disconnects, none is in the loop of `disconnect(false)`. -/
theorem coherent_rejoins {es : List Event} {s : Sys} (hc : CoherentRun es)
    (hrun : Sys.run es = some s) (A T : ℕ) :
    (s.thread A T).calls.any Call.reconnects = false := by
  refine TraceSystem.Meets.history
    (I := fun _ s => ∀ A T, (s.thread A T).calls.any Call.reconnects = false) ?_ ?_ hc hrun A T
  · intro A T
    rfl
  · intro fs e r r' hfs hr ih hCe hrr' A T
    obtain ⟨hsound,hlocks⟩ := online_run (fun _ _ h => by cases h) hfs hr
    by_contra hT
    obtain hre | ⟨rfl,-⟩ | ⟨-,hoff,-⟩ := step_rejoins hsound hrr' A
    · have := (hre T (Bool.not_eq_false _ ▸ hT)).1
      rw [ih A T] at this
      cases this
    · cases hCe
    · obtain ⟨g,-,-,hon⟩ := hlocks 0
      have hon' : (r.client A).disconnected = false := (hon A).1
      rw [hon'] at hoff
      cases hoff

/-- Along a coherent run, what was put last is where the lock's protocol says. -/
theorem coherent_run {es : List Event} {s : Sys} (hc : CoherentRun es)
    (hrun : Sys.run es = some s) :
    ∀ l, ∃ g, s.Tracks l g ∧ Good (s.view l g) ∧ (s.view l g).Coherent (lastPut l es) := by
  have hc' : TraceSystem.Meets Sys.step (fun s e => s.coherent e = true ∧
      ∀ A T, (s.thread A T).calls.any Call.reconnects = false) Sys.init es :=
    hc.strengthen (fun _ _ hfs hr => coherent_rejoins hfs hr)
  refine (lock_history (P := fun es l v => v.Coherent (lastPut l es)) ?_ ?_ ?_ hc' hrun).2
  · intro _ A h
    cases h.1
  · intro l
    exact ⟨fun _ => ⟨rfl, rfl⟩, fun _ _ _ h => (by cases h), current_init, latest_init⟩
  · intro fs r e r' l g g' hs ht hg hP ⟨hCe,hre⟩ hquiet hrr' ht' hprog
    -- the protocol's own invariants, whatever the step is
    have hrest : (r'.view l g').Online ∧ (r'.view l g').Peaceful ∧ (r'.view l g').Current := by
      obtain heq | ⟨k,hk,hls⟩ := hprog
      · rw [heq]
        exact ⟨hP.online, hP.peaceful, hP.current⟩
      · have hdis : ∀ A, k ≠ .disconnect A := by
          rintro A rfl
          obtain rfl := hk
          cases hCe
        exact ⟨online_step hls hdis hP.online, peaceful_step hls hP.online hP.peaceful,
          current_step hg hP.current (coherent_careful hCe hP.online hk) hls (hquiet k hk)⟩
    refine ⟨hrest.1, hrest.2.1, hrest.2.2, ?_⟩
    by_cases hput : ∃ A T buf, e = .client A T (.put l buf)
    · obtain ⟨A,T,buf,rfl⟩ := hput
      rw [lastPut_put, if_pos rfl]
      exact latest_put ht hg hP.online hrr' ht'
    · have hput' : ∀ A T buf, e ≠ .client A T (.put l buf) :=
        fun A T buf he => hput ⟨A, T, buf, he⟩
      rw [lastPut_other l fs e hput']
      obtain heq | ⟨k,hk,hls⟩ := hprog
      · rw [heq]
        exact hP.latest
      · exact latest_step hg hP.online hP.current hP.latest (coherent_reading hs hCe hre hput' hk)
          hls

/-- A `get` ends with the value that was put last. -/
theorem returned_latest {s s' : Sys} {e : Event} {l : ℕ} {g : ℕ → Option (Agent × Role)}
    {last r : Option Str} (ht : s.Tracks l g) (hg : Good (s.view l g))
    (hon : (s.view l g).Online) (hl : (s.view l g).Latest last) (h : s.step e = some s')
    (hr : s.returned e = some (l, r)) : r = last := by
  have howner : ∀ A T, (s.thread A T).Holds l → ((s.view l g).party A).Latest s.table[l]? last :=
    fun A T hold => hl.owner A (holder_owns ht hg hon hold)
  unfold Sys.returned at hr
  split at hr
  · rename_i A T lid
    have hsec : ∃ read, (s.thread A T).section? lid = some read := by
      rcases hsec : ((s.client A).thread T).section? lid with _ | read
      · simp [Sys.step, Client.move, Client.access, hsec] at h
      · exact ⟨read, hsec⟩
    obtain ⟨read,hsec⟩ := hsec
    split at hr
    · rename_i c hcopy
      cases hr
      exact ((howner A T (section_holds hsec)).cached c hcopy).symm
    · rename_i hcopy
      split_ifs at hr with hx
      cases hr
      have := (howner A T (section_holds hsec)).uncached hcopy
      rw [this, hx]
      rfl
  · rename_i A T
    split at hr
    · rename_i lid read buf hcalls
      cases hr
      have hmem : .load l read buf .get ∈ (s.thread A T).calls := by simp [hcalls]
      obtain ⟨hgA,-⟩ := agents_top (r := .loading read buf) (ht.agents A) hcalls (by simp)
      have hp := howner A T (Or.inr ⟨read, buf, .get, hmem⟩)
      obtain ⟨hn,hx⟩ := hp.loading T read buf hgA
      rw [hp.uncached hn, hx]
    · cases hr
  · cases hr

theorem get_returns_last_put {es : List Event} {s : Sys} (hc : CoherentRun es)
    (hrun : Sys.run es = some s) :
    (∀ e s' lid r, s.step e = some s' → s.returned e = some (lid, r) → r = lastPut lid es) ∧
      s.extentServerUp = true ∧ ∀ e A lid c f, s.flush? e = some (A, lid) →
        (s.client A).localExtent[lid]? = some c → c.dirty = true → s.table[lid]? = some f →
        c.attr.version = f.a.version := by
  have hcur : ∀ {es s}, CoherentRun es → Sys.run es = some s →
      ∀ l, ∃ g, s.Tracks l g ∧ Good (s.view l g) ∧ (s.view l g).Current := by
    intro es s hc hrun l
    obtain ⟨g,ht,hg,h⟩ := coherent_run hc hrun l
    exact ⟨g, ht, hg, h.current⟩
  refine ⟨?_, extentServerUp_run hcur hc hrun, ?_⟩
  · intro e s' lid r hstep hr
    obtain ⟨g,ht,hg,h⟩ := coherent_run hc hrun lid
    exact returned_latest ht hg h.online h.latest hstep hr
  · intro e A lid c f hf hcopy _ hx
    exact flush_version (hcur hc hrun) hf hcopy hx

/-- Two clients write in turn, and the first has begun to load the extent again. -/
def passedOn : List Event :=
  acquires 1 0 5 ++ reads 1 0 5 ++ writes 1 0 5 [2] ++ releases 1 0 5 ++ asks 0 0 5 ++
    steals 0 0 5 ++ [.client 0 0 .wake] ++ reads 0 0 5 ++ [.client 0 0 .loadAttr] ++
    writes 0 0 5 [3] ++ releases 0 0 5 ++ asks 1 0 5 ++ steals 1 0 5 ++ [.client 1 0 .wake] ++
    reads 1 0 5

theorem get_returns_passed_on : ∃ s, Sys.run passedOn = some s ∧ s.extentServerUp = true ∧
    (s.step (.client 1 0 .loadAttr)).isSome = true ∧
      s.returned (.client 1 0 .loadAttr) = some (5, some [3]) ∧
      lastPut 5 passedOn = some [3] := by
  obtain ⟨s,hrun,hstep,hr⟩ := run_reaches
    (P := fun s => (s.step (.client 1 0 .loadAttr)).isSome = true ∧
      (s.returned (.client 1 0 .loadAttr)).map Prod.fst = some 5)
    (show (Sys.run passedOn).any _ = true by decide +kernel)
  obtain ⟨s',hs'⟩ := Option.isSome_iff_exists.mp hstep
  obtain ⟨⟨lid,r⟩,hr,rfl⟩ := Option.map_eq_some_iff.mp hr
  obtain ⟨hget,hup,-⟩ := get_returns_last_put (by decide +kernel) hrun
  have hlast : lastPut 5 passedOn = some [3] := by decide +kernel
  rw [hget _ s' 5 r hs' hr, hlast] at hr
  exact ⟨s, hrun, hup, hstep, hr, hlast⟩

end DisconnectedYfs.YFS
