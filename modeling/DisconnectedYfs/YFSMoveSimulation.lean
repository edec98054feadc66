import DisconnectedYfs.YFSLockSimulation

/-! Releases, conflict resolution and the moves on extents follow the protocol, and so does every
move of a client. -/
namespace DisconnectedYfs.YFS
open Std

/-- A flush touches one extent, drops its cached copy, and brings the server up to date. -/
theorem flush_flushes {m m' : Cache} {t t' : Table} {eid : ℕ} {now : UInt32}
    (h : m.flush t eid now = some (m', t')) :
    m'[eid]? = none ∧ Flushes m[eid]? t[eid]? t'[eid]? ∧
      ∀ l, eid ≠ l → m'[l]? = m[l]? ∧ t'[l]? = t[l]? := by
  obtain ⟨hn,rfl,rfl⟩ | ⟨e,he,hd,rfl,hp⟩ | ⟨e,he,hd,rfl,rfl⟩ := cache_flush_cases h
  · refine ⟨hn, Or.inl ⟨hn, by simp⟩, ?_⟩
    intro l hl
    simp [hl]
  · refine ⟨by simp, Or.inr (Or.inr ?_), ?_⟩
    · obtain ⟨f,hf,hb,-,-,hv⟩ := table_put_self hp
      exact ⟨e, f, he, hd, hf, hb, hv⟩
    · intro l hl
      exact ⟨by simp [hl], table_put_other hp hl⟩
  · refine ⟨by simp, Or.inr (Or.inl ⟨e, he, hd, rfl⟩), ?_⟩
    intro l hl
    simp [hl]

section
variable {c c' : Client} {t t' : Table} {now : UInt32} {T lid l : ℕ}
  {g : Option (Agent × Role)} {rest : List Call} {m : Move} {a b : ℕ}

theorem releaseWo_simulates (hfit : c.Fit)
    (hcalls : (c.thread T).calls = .release lid .start :: rest)
    (h : c.releaseWo t now T lid rest = some (.done c' t')) :
    Simulates c t T (.turn a b) c' t' := by
  have hleft : Explains c t T (.turn a b) lid .left := ⟨rest, ⟨a, b, rfl⟩, hcalls⟩
  unfold Client.releaseWo at h
  dsimp only at h
  split at h
  · rename_i hs
    refine releaseDone_simulates hfit hcalls (release_roles _ _) ?_ ?_ ?_ ?_ ?_ ?_
      ⟨.left, hleft, ?_⟩ (Option.some.inj h)
    · intro l hl; simp [hl]
    · intro l; rfl
    · intro U; rfl
    · intro l hl; simp [hl]
    · rfl
    · rfl
    · rw [party_setLock]
      cases hst : (c.lock lid).stale <;> simp only [Client.party, hs, hst]
      · exact .free
      · exact .forget
  · rename_i hs
    split_ifs at h with hv hec
    · cases h
    · split at h
      · cases h
      · rename_i p hp
        cases h
        obtain ⟨h1,h2,h3⟩ := flush_flushes (show _ = some (p.1, p.2) from hp)
        simp only [Bool.or_eq_true, not_or, Bool.not_eq_true] at hv
        apply become_simulates lid
        · constructor <;> simp_all [Thread.marks, Call.reconnects]
        · intro l hl; simp [Thread.roles, hcalls, hl]
        · intro l hl; rfl
        · intro l hl; exact (h3 l hl).1
        · intro l hl; exact (h3 l hl).2
        · intro g ha hfits
          obtain ⟨rfl,hr⟩ := agents_top ha hcalls (release_roles _ _)
          refine ⟨.releasing, .left, Or.inr ⟨_, rfl⟩, ?_, hleft, ?_⟩
          · rw [thread_setLcMutex, roles_setCalls]
            simpa [ReleasePc.role] using hr
          · rw [party_setLcMutex, party_setCalls, party_setCache, h1]
            simp only [Client.party, hs, hv.1, hv.2]
            exact .flush h2
  · cases h

/-- The end of a `release` whose RPC was answered. -/
theorem released_simulates (hfit : c.Fit)
    (hcalls : (c.thread T).calls = .release lid .reply :: rest)
    (h : ((c.setLcMutex (some T)).setLock lid .none (c.lock lid).stale).releaseDone t T rest =
      .done c' t') : Simulates c t T m c' t' := by
  refine releaseDone_simulates hfit hcalls (release_roles _ _) ?_ ?_ ?_ ?_ ?_ ?_
    ⟨.plain, trivial, ?_⟩ h
  · intro l hl; simp [hl]
  · intro l; rfl
  · intro U; rfl
  · intro l hl; simp [hl]
  · rfl
  · rfl
  · rw [party_setLock]
    exact .done

/-- The conflict branch is the one activity of its own lock. -/
theorem resolve_self (ha : c.Agents l g) {stage : Stage}
    (hcalls : (c.thread T).calls = .resolve l stage :: rest) :
    g = some (.thread T, stage.role) ∧ holdRoles stage.holds l = [] ∧
    restRoles c T rest l = [] := by
  have hr := roles_top hcalls l
  rw [roles_resolve, if_pos rfl, List.append_assoc] at hr
  obtain ⟨h1,h2⟩ := agents_single ha hr (List.mem_cons_self)
  simp only [List.cons_append, List.nil_append, List.cons.injEq, List.append_eq_nil_iff,
    true_and] at h2
  exact ⟨h1, h2⟩

/-- It is also the one activity of the locks it holds for the copy. -/
theorem resolve_holds {n : ℕ} {read : Bool} (ha : c.Agents n g) {stage : Stage}
    (hcalls : (c.thread T).calls = .resolve l stage :: rest) (hn : (n, read) ∈ stage.holds) :
    g = some (.thread T, .holding read) ∧ l ≠ n ∧ holdRoles stage.holds n = [.holding read] ∧
      restRoles c T rest n = [] := by
  have hr := roles_top hcalls n
  rw [roles_resolve, List.append_assoc] at hr
  have hm : .holding read ∈ holdRoles stage.holds n :=
    List.mem_map.mpr ⟨(n, read), List.mem_filter.mpr ⟨hn, by simp⟩, rfl⟩
  obtain ⟨h1,h2⟩ := agents_single (r := .holding read) ha hr (by simp [hm])
  have hl : l ≠ n := by
    intro h
    rcases stage_role stage with hs | hs <;> simp [h, hs] at h2
  simp only [if_neg hl, List.nil_append] at h2
  obtain ⟨h3,-⟩ | h3 := List.append_eq_singleton_iff.mp h2
  · rw [h3] at hm
    cases hm
  · exact ⟨h1, hl, h3⟩

theorem withExtent_cases {stage : Stage} {eid : ℕ} {noent o : Outcome}
    {found : Client → Entry → Outcome}
    (h : c.withExtent t now T l rest stage eid noent found = some o) :
    (∃ e, c.localExtent[eid]? = some e ∧ found (c.setEcMutex none) e = o) ∨
    (c.localExtent[eid]? = none ∧ t[eid]? = none ∧ noent = o) ∨
    ∃ buf, o =
      .done ((c.setCalls T (.resolve l (.fetch buf stage) :: rest)).setEcMutex (some T)) t := by
  unfold Client.withExtent at h
  split_ifs at h
  split at h
  · rename_i e he
    exact Or.inl ⟨e, he, Option.some.inj h⟩
  · rename_i he
    split at h
    · rename_i ht
      refine Or.inr (Or.inl ⟨he, ?_, Option.some.inj h⟩)
      simpa [Table.get] using ht
    · exact Or.inr (Or.inr ⟨_, (Option.some.inj h).symm⟩)

/-- Waiting for the second RPC of `get_helper` changes nothing yet. -/
theorem fetching_simulates {stage : Stage} (buf : Str)
    (hcalls : (c.thread T).calls = .resolve l stage :: rest) :
    Simulates c t T m
      ((c.setCalls T (.resolve l (.fetch buf stage) :: rest)).setEcMutex (some T)) t := by
  apply same_simulates
  · constructor <;> simp_all [Thread.marks, Call.reconnects]
  · intro n
    rw [thread_setEcMutex, roles_setCalls, roles_top hcalls n, restRoles_cons]
    rfl
  · intro n; rfl
  · rfl
  · rfl

theorem touch_same (cache : Cache) {eid : ℕ} {e : Entry} (now : UInt32)
    (he : cache[eid]? = some e) :
    ∃ e', (cache.touch eid now)[eid]? = some e' ∧ e.Same e' := by
  rw [cache_touch_getElem, he]
  exact ⟨_, rfl, by simp [Entry.Same]⟩

theorem touch_other (cache : Cache) {eid l : ℕ} (now : UInt32) (hl : eid ≠ l) :
    (cache.touch eid now)[l]? = cache[l]? := by
  rw [cache_touch_getElem]
  simp [hl]

theorem setName_same (cache : Cache) {eid : ℕ} {e : Entry} (name : Str)
    (he : cache[eid]? = some e) :
    ∃ e', (cache.setName eid name)[eid]? = some e' ∧ e.Same e' := by
  rw [cache_setName_getElem, he]
  exact ⟨_, rfl, by simp [Entry.Same]⟩

theorem setName_other (cache : Cache) {eid l : ℕ} (name : Str) (hl : eid ≠ l) :
    (cache.setName eid name)[l]? = cache[l]? := by
  rw [cache_setName_getElem]
  simp [hl]

/-- `remote_exists(new_lid)`. -/
theorem probe_simulates {n : ℕ} (hcalls : (c.thread T).calls = .resolve l (.probe n) :: rest)
    (h : c.resolveStep t now T a b l rest (.probe n) = some (.done c' t')) :
    Simulates c t T m c' t' := by
  have hmem : (n, false) ∈ (Stage.probe n).holds := by simp [Stage.holds]
  simp only [Client.resolveStep] at h
  obtain ⟨e,he,hd⟩ | ⟨he,ht,hd⟩ | ⟨buf,hd⟩ := withExtent_cases h
  · cases hd
    obtain ⟨e',he',hsame⟩ := touch_same c.localExtent now he
    apply become_simulates n
    · constructor <;> simp_all [Thread.marks, Call.reconnects]
    · intro l' hl
      rw [roles_setCalls, roles_top hcalls]
      simp [Stage.role, Stage.holds, hl]
    · intro l' hl; rfl
    · intro l' hl; exact touch_other c.localExtent now hl
    · intro l' hl; rfl
    · intro g ha hfits
      obtain ⟨rfl,hl,-,hr⟩ := resolve_holds ha hcalls hmem
      refine ⟨.leaving, .resolve, Or.inr ⟨_, rfl⟩, ?_, ⟨l, .probe n, by simp [hcalls]⟩, ?_⟩
      · rw [roles_setCalls]
        simp [Stage.holds, hl, hr, ReleasePc.role]
      · rw [party_setCalls, party_setCache, cache_setEcMutex, he']
        simp only [Client.party, he]
        exact .probed hsame
  · cases hd
    apply become_simulates n
    · constructor <;> simp_all [Thread.marks, Call.marks, Call.reconnects]
    · intro l' hl
      rw [roles_setCalls, roles_top hcalls]
      simp [Stage.role, Stage.holds, AcquirePc.roles, hl]
    · intro l' hl; rfl
    · intro l' hl; rfl
    · intro l' hl; rfl
    · intro g ha hfits
      obtain ⟨rfl,hl,-,hr⟩ := resolve_holds ha hcalls hmem
      refine ⟨.holding true, .plain, Or.inr ⟨_, rfl⟩, ?_, trivial, ?_⟩
      · rw [roles_setCalls]
        simp [Stage.holds, AcquirePc.roles, hl, hr]
      · rw [party_setCalls, ht]
        simp only [Client.party, he]
        exact .absent
  · cases hd
    exact fetching_simulates buf hcalls

/-- The first half of `make_copy`: the contents go to the new extent. -/
theorem copy_simulates {n tmp : ℕ} (hfit : c.Fit)
    (hcalls : (c.thread T).calls = .resolve l (.copy n tmp) :: rest)
    (h : c.resolveStep t now T a b l rest (.copy n tmp) = some (.done c' t')) :
    Simulates c t T m c' t' := by
  have hmem : (n, true) ∈ (Stage.copy n tmp).holds := by simp [Stage.holds]
  have hres : ∀ l', Explains c t T m l' .resolve := fun _ => ⟨l, .copy n tmp, by simp [hcalls]⟩
  simp only [Client.resolveStep] at h
  obtain ⟨e,he,hd⟩ | ⟨he,ht,hd⟩ | ⟨buf,hd⟩ := withExtent_cases h
  · cases hd
    obtain ⟨g₀,hg₀,-⟩ := hfit n
    obtain ⟨-,hln,-,-⟩ := resolve_holds hg₀ hcalls hmem
    obtain ⟨e',he',hsame⟩ := touch_same c.localExtent now he
    have honly : OnlyThread T c (((c.setEcMutex none).setCache
        (((c.setEcMutex none).localExtent.touch l now).put n e.extent now)).setCalls T
          (.resolve l (.readTmp n tmp e.attr.name) :: rest)) := by
      constructor <;> simp_all [Thread.marks, Call.reconnects]
    have hrol : ∀ l', ((((c.setEcMutex none).setCache
        (((c.setEcMutex none).localExtent.touch l now).put n e.extent now)).setCalls T
          (.resolve l (.readTmp n tmp e.attr.name) :: rest)).thread T).roles l' =
            (c.thread T).roles l' := by
      intro l'
      rw [roles_setCalls, roles_top hcalls, restRoles_cons]
      rfl
    refine ⟨honly, ?_⟩
    intro l' g ha _
    by_cases h1 : l = l'
    · subst h1
      obtain ⟨rfl,-,-⟩ := resolve_self ha hcalls
      refine ⟨_, ha.same honly.others (hrol l), Or.inr ⟨.resolve, hres l, ?_⟩⟩
      rw [party_setCalls, party_setCache, cache_setEcMutex, cache_put_other _ _ _ hln.symm, he']
      simp only [Client.party, he]
      exact .touch hsame
    · by_cases h2 : n = l'
      · subst h2
        obtain ⟨rfl,-,-,-⟩ := resolve_holds ha hcalls hmem
        refine ⟨_, ha.same honly.others (hrol n), Or.inr ⟨.resolve, hres n, ?_⟩⟩
        obtain ⟨e₂,he₂,hd₂,-,-,hv₂,-⟩ := cache_put_self (c.localExtent.touch l now) n e.extent now
        rw [touch_other c.localExtent now hln] at hv₂
        rw [party_setCalls, party_setCache, cache_setEcMutex, he₂]
        exact .copy hd₂ hv₂
      · apply follows_same honly ha (hrol l')
        · rfl
        · exact (cache_put_other _ _ _ h2).trans (touch_other c.localExtent now h1)
        · rfl
  · cases hd
  · cases hd
    exact fetching_simulates buf hcalls

/-- `make_copy` reads the directory. -/
theorem readTmp_simulates {n tmp : ℕ} {name : Str}
    (hcalls : (c.thread T).calls = .resolve l (.readTmp n tmp name) :: rest)
    (h : c.resolveStep t now T a b l rest (.readTmp n tmp name) = some (.done c' t')) :
    Simulates c t T m c' t' := by
  have hmem : (tmp, false) ∈ (Stage.readTmp n tmp name).holds := by simp [Stage.holds]
  simp only [Client.resolveStep] at h
  obtain ⟨e,he,hd⟩ | ⟨he,ht,hd⟩ | ⟨buf,hd⟩ := withExtent_cases h
  · split at hd
    · cases hd
    · cases hd
      obtain ⟨e',he',hsame⟩ := touch_same c.localExtent now he
      apply become_simulates tmp
      · constructor <;> simp_all [Thread.marks, Call.reconnects]
      · intro l' hl
        rw [roles_setCalls, roles_top hcalls]
        simp [Stage.role, Stage.holds, hl]
      · intro l' hl; rfl
      · intro l' hl; exact touch_other c.localExtent now hl
      · intro l' hl; rfl
      · intro g ha hfits
        obtain ⟨rfl,hl,hh,hr⟩ := resolve_holds ha hcalls hmem
        refine ⟨.holding true, .plain, Or.inr ⟨_, rfl⟩, ?_, trivial, ?_⟩
        · rw [roles_setCalls]
          by_cases hn : n = tmp <;> simp_all [Stage.holds]
        · rw [party_setCalls, party_setCache, cache_setEcMutex, he']
          simp only [Client.party, he]
          exact .read hsame
  · cases hd
  · cases hd
    exact fetching_simulates buf hcalls

/-- `make_copy` names the copy and enters it in the directory. -/
theorem enter_simulates {n tmp : ℕ} {name dir : Str} (hfit : c.Fit)
    (hcalls : (c.thread T).calls = .resolve l (.enter n tmp name dir) :: rest)
    (h : c.resolveStep t now T a b l rest (.enter n tmp name dir) = some (.done c' t')) :
    Simulates c t T m c' t' := by
  have hn : (n, true) ∈ (Stage.enter n tmp name dir).holds := by simp [Stage.holds]
  have htmp : (tmp, true) ∈ (Stage.enter n tmp name dir).holds := by simp [Stage.holds]
  simp only [Client.resolveStep] at h
  obtain ⟨e,he,hd⟩ | ⟨he,ht,hd⟩ | ⟨buf,hd⟩ := withExtent_cases h
  · cases hd
    obtain ⟨g₀,hg₀,-⟩ := hfit n
    obtain ⟨-,-,hone,-⟩ := resolve_holds hg₀ hcalls hn
    have hne : tmp ≠ n := by
      intro h
      simp [Stage.holds, h] at hone
    obtain ⟨e',he',hsame⟩ := setName_same c.localExtent name he
    have honly : OnlyThread T c (((c.setEcMutex none).setCache
        (((c.setEcMutex none).localExtent.setName n name).put tmp dir now)).setCalls T
          (.resolve l (.drop n tmp) :: rest)) := by
      constructor <;> simp_all [Thread.marks, Call.reconnects]
    have hrol : ∀ l', ((((c.setEcMutex none).setCache
        (((c.setEcMutex none).localExtent.setName n name).put tmp dir now)).setCalls T
          (.resolve l (.drop n tmp) :: rest)).thread T).roles l' = (c.thread T).roles l' := by
      intro l'
      rw [roles_setCalls, roles_top hcalls, restRoles_cons]
      rfl
    refine ⟨honly, ?_⟩
    intro l' g ha _
    by_cases h1 : n = l'
    · subst h1
      obtain ⟨rfl,-,-,-⟩ := resolve_holds ha hcalls hn
      refine ⟨_, ha.same honly.others (hrol n), Or.inr ⟨.plain, trivial, ?_⟩⟩
      rw [party_setCalls, party_setCache, cache_setEcMutex, cache_put_other _ _ _ hne, he']
      simp only [Client.party, he]
      exact .read hsame
    · by_cases h2 : tmp = l'
      · subst h2
        obtain ⟨rfl,-,-,-⟩ := resolve_holds ha hcalls htmp
        refine ⟨_, ha.same honly.others (hrol tmp),
          Or.inr ⟨.resolve, ⟨l, _, by rw [hcalls]; exact List.mem_cons_self⟩, ?_⟩⟩
        obtain ⟨e₂,he₂,hd₂,-,-,hv₂,-⟩ := cache_put_self (c.localExtent.setName n name) tmp dir now
        rw [setName_other c.localExtent name hne.symm] at hv₂
        rw [party_setCalls, party_setCache, cache_setEcMutex, he₂]
        exact .copy hd₂ hv₂
      · apply follows_same honly ha (hrol l')
        · rfl
        · exact (cache_put_other _ _ _ h2).trans (setName_other c.localExtent name h1)
        · rfl
  · cases hd
  · cases hd
    exact fetching_simulates buf hcalls

/-- The conflicting copy is removed, and the release of the directory begins. -/
theorem drop_simulates {n tmp : ℕ}
    (hcalls : (c.thread T).calls = .resolve l (.drop n tmp) :: rest)
    (h : c.resolveStep t now T a b l rest (.drop n tmp) = some (.done c' t')) :
    Simulates c t T m c' t' := by
  have htmp : (tmp, true) ∈ (Stage.drop n tmp).holds := by simp [Stage.holds]
  simp only [Client.resolveStep] at h
  split_ifs at h
  split at h
  · cases h
  · rename_i cache hc
    cases h
    obtain rfl : cache = c.localExtent.erase l := by
      unfold Cache.remove at hc
      split at hc
      · exact (Option.some.inj hc).symm
      · cases hc
    have honly : OnlyThread T c ((c.setCache (c.localExtent.erase l)).setCalls T
        (.release tmp .start :: .resolve l (.releaseTmp n) :: rest)) := by
      constructor <;> simp_all [Thread.marks, Call.reconnects]
    refine ⟨honly, ?_⟩
    intro l' g ha _
    by_cases h1 : l = l'
    · subst h1
      obtain ⟨rfl,hh,hr⟩ := resolve_self ha hcalls
      refine ⟨some (.thread T, .dropped), ha.become honly.others (Or.inr ⟨_, rfl⟩) ?_,
        Or.inr ⟨.resolve, ⟨l, _, by rw [hcalls]; exact List.mem_cons_self⟩, ?_⟩⟩
      · rw [roles_setCalls]
        simp_all [Stage.role, Stage.holds]
      · rw [party_setCalls, party_setCache, cache_getElem_erase, if_pos rfl]
        exact .drop
    · by_cases h2 : tmp = l'
      · subst h2
        obtain ⟨rfl,hl,hh,hr⟩ := resolve_holds ha hcalls htmp
        refine ⟨some (.thread T, .leaving), ha.become honly.others (Or.inr ⟨_, rfl⟩) ?_,
          Or.inr ⟨.quit true, Or.inr ⟨l, _, by rw [hcalls]; exact List.mem_cons_self⟩, ?_⟩⟩
        · rw [roles_setCalls]
          by_cases hn : n = tmp <;> simp_all [Stage.holds, ReleasePc.role]
        · rw [party_setCalls, party_setCache, cache_getElem_erase, if_neg h1]
          exact .leave
      · apply follows_same honly ha
        · rw [roles_setCalls, roles_top hcalls]
          simp [Stage.holds, h1, h2]
        · rfl
        · simp [h1]
        · rfl

/-- The second RPC of `get_helper`: the extent a stage reads is one whose lock the thread has. -/
theorem fetch_simulates {buf : Str} {caller : Stage}
    (hcalls : (c.thread T).calls = .resolve l (.fetch buf caller) :: rest)
    (h : c.resolveStep t now T a b l rest (.fetch buf caller) = some (.done c' t')) :
    Simulates c t T m c' t' := by
  simp only [Client.resolveStep] at h
  split at h
  · cases h
  · rename_i eid htgt
    split at h
    · cases h
    · rename_i attr hattr
      cases h
      obtain ⟨f,hf,rfl⟩ := Option.map_eq_some_iff.mp hattr
      have hres : Explains c t T m eid .resolve :=
        ⟨l, _, by rw [hcalls]; exact List.mem_cons_self⟩
      have honly : OnlyThread T c ((c.setCache (c.localExtent.load eid buf f.a)).setCalls T
          (.resolve l caller :: rest)) := by
        constructor <;> simp_all [Thread.marks, Call.reconnects]
      have hrol : ∀ l', (((c.setCache (c.localExtent.load eid buf f.a)).setCalls T
          (.resolve l caller :: rest)).thread T).roles l' = (c.thread T).roles l' := by
        intro l'
        rw [roles_setCalls, roles_top hcalls, restRoles_cons]
        rfl
      refine ⟨honly, ?_⟩
      intro l' g ha _
      by_cases h1 : eid = l'
      · subst h1
        have hg : ∃ r, (r = .resolving ∨ ∃ read, r = .holding read) ∧ g = some (.thread T, r) := by
          cases caller
          case probe n =>
            cases htgt
            exact ⟨_, Or.inr ⟨_, rfl⟩, (resolve_holds ha hcalls (List.mem_cons_self)).1⟩
          case enter n tmp name dir =>
            cases htgt
            exact ⟨_, Or.inr ⟨_, rfl⟩, (resolve_holds ha hcalls (List.mem_cons_self)).1⟩
          case copy n tmp =>
            cases htgt
            exact ⟨_, Or.inl rfl, (resolve_self ha hcalls).1⟩
          case readTmp n tmp name =>
            cases htgt
            exact ⟨_, Or.inr ⟨_, rfl⟩,
              (resolve_holds ha hcalls (List.mem_cons_of_mem _ List.mem_cons_self)).1⟩
          all_goals cases htgt
        obtain ⟨r,hr,rfl⟩ := hg
        refine ⟨_, ha.same honly.others (hrol eid), Or.inr ⟨.resolve, hres, ?_⟩⟩
        rw [party_setCalls, party_setCache, hf]
        simp only [Cache.load, cache_getElem_insert, if_true]
        exact .fetch hr rfl rfl
      · apply follows_same honly ha (hrol l')
        · rfl
        · simp [Cache.load, h1]
        · rfl

theorem resolveStep_simulates {stage : Stage} (hfit : c.Fit)
    (hcalls : (c.thread T).calls = .resolve l stage :: rest)
    (h : c.resolveStep t now T a b l rest stage = some (.done c' t')) :
    Simulates c t T m c' t' := by
  cases stage with
  | draw =>
    cases h
    apply same_simulates
    · constructor <;> simp_all [Thread.marks, Call.marks, Call.reconnects]
    · intro l'
      rw [roles_setCalls, roles_top hcalls]
      simp [Stage.role, Stage.holds, AcquirePc.roles]
    · intro l'; rfl
    · rfl
    · rfl
  | probe n => exact probe_simulates hcalls h
  | copy n tmp => exact copy_simulates hfit hcalls h
  | readTmp n tmp name => exact readTmp_simulates hcalls h
  | enter n tmp name dir => exact enter_simulates hfit hcalls h
  | drop n tmp => exact drop_simulates hcalls h
  | fetch buf caller => exact fetch_simulates hcalls h
  | _ => cases h

/-- The loop of `disconnect(false)` only moves on to its next lock; its last assignment changes
nothing, as the client is still connected. -/
theorem reconnectLoop_simulates {k : Option ℕ} (hset : c.Settled)
    (hcalls : (c.thread T).calls = .reconnect k :: rest)
    (h : c.reconnectLoop t T k rest = .done c' t') : Simulates c t T m c' t' := by
  have hoff : c.disconnected = false := hset T (by simp [hcalls, Call.reconnects])
  have hc : ({ c with disconnected := false } : Client) = c := by
    cases c
    cases hoff
    rfl
  have hnext : ∀ calls mutex, (∀ l, stackRoles calls l = stackRoles rest l) →
      (∀ l, calls.flatMap (Call.marks l) = rest.flatMap (Call.marks l)) →
      Simulates c t T m ((c.setCalls T calls).setLcMutex mutex) t := by
    intro calls mutex h1 h2
    apply same_simulates
    · constructor <;> simp_all [Thread.marks, Call.marks, Call.reconnects]
    · intro l
      rw [thread_setLcMutex, roles_setCalls, roles_top hcalls]
      simp [restRoles, h1]
    · intro l; rfl
    · rfl
    · rfl
  unfold Client.reconnectLoop at h
  split at h
  · rw [hc] at h
    cases h
    exact hnext rest none (fun _ => rfl) (fun _ => rfl)
  · split_ifs at h
    · cases h
      exact hnext _ c.lcMutex (fun _ => rfl) (fun _ => rfl)
    · cases h
      refine hnext _ c.lcMutex (fun l => ?_) (fun _ => rfl)
      simp [AcquirePc.roles]

theorem turn_simulates (hfit : c.Fit) (hset : c.Settled)
    (h : c.turn t now T a b = some (.done c' t')) : Simulates c t T (.turn a b) c' t' := by
  unfold Client.turn at h
  split at h
  · rename_i hcalls
    exact acquireEnter_simulates hcalls (Option.some.inj h)
  · rename_i hcalls
    exact acquireCheck_simulates hfit hcalls (Option.some.inj h)
  · rename_i hcalls
    exact releaseWo_simulates hfit hcalls h
  · rename_i hcalls
    exact resolveStep_simulates hfit hcalls h
  · rename_i hcalls
    exact reconnectLoop_simulates hset hcalls (Option.some.inj h)
  · cases h

theorem wake_simulates (hfit : c.Fit) (h : c.wake t T = some (.done c' t')) :
    Simulates c t T .wake c' t' := by
  unfold Client.wake at h
  split at h
  · rename_i lid rest hcalls
    cases h
    apply same_simulates
    · constructor <;> simp_all [Thread.marks, Call.marks, Call.reconnects]
    · intro l
      rw [thread_setLcMutex, roles_setCalls, roles_top hcalls]
      simp [AcquirePc.roles]
    · intro l; rfl
    · rfl
    · rfl
  · rename_i hcalls
    exact acquireReply_simulates hfit hcalls h
  · rename_i lid rest hcalls
    split_ifs at h with hs
    cases h
    apply become_simulates lid
    · constructor <;> simp_all [Thread.marks, Call.marks, Call.reconnects]
    · intro l hl
      rw [roles_setCalls, roles_top hcalls]
      simp [hl]
    · intro l hl; rfl
    · intro l hl; rfl
    · intro l hl; rfl
    · intro g ha hfits
      obtain ⟨rfl,hr⟩ := agents_top ha hcalls (acquire_roles _ _)
      refine ⟨.asking, .plain, Or.inr ⟨_, rfl⟩, ?_, trivial, ?_⟩
      · rw [roles_setCalls]
        simpa [AcquirePc.roles] using hr
      · have hoff : c.disconnected = false := hfits.1
        rw [party_setCalls]
        simp only [Client.party, hoff]
        exact .wake hs
  · rename_i hcalls
    exact released_simulates hfit hcalls (Option.some.inj h)
  · cases h

/-- A thread that is in a section is the one activity of that lock. -/
theorem section_self {read : Bool} (ha : c.Agents lid g)
    (hs : (c.thread T).section? lid = some read) :
    g = some (.thread T, .holding read) ∧ stackRoles (c.thread T).calls lid = [] ∧
      holdRoles (c.thread T).held lid = [.holding read] := by
  have hm := holdRoles_of_section hs
  obtain ⟨h1,h2⟩ := agents_single ha rfl (List.mem_append_right _ hm)
  refine ⟨h1, ?_⟩
  obtain h3 | ⟨-,h3⟩ := List.append_eq_singleton_iff.mp h2
  · exact h3
  · rw [h3] at hm
    cases hm

theorem finish_same (op : Access) (cache : Cache) {e : Entry} (now : UInt32)
    (he : cache[lid]? = some e) :
    ∃ e', (op.finish cache lid now)[lid]? = some e' ∧ e.Same e' := by
  cases op with
  | get => exact touch_same cache now he
  | getattr => exact ⟨e, he, rfl, rfl, rfl⟩
  | rename name => exact setName_same cache name he

theorem finish_other (op : Access) (cache : Cache) (now : UInt32) (hl : lid ≠ l) :
    (op.finish cache lid now)[l]? = cache[l]? := by
  cases op with
  | get => exact touch_other cache now hl
  | getattr => rfl
  | rename name => exact setName_other cache name hl

theorem access_simulates {op : Access} (h : c.access t now T lid op = some (.done c' t')) :
    Simulates c t T m c' t' := by
  unfold Client.access at h
  dsimp only at h
  split at h
  · cases h
  · rename_i read hsec
    split_ifs at h with hidle
    obtain ⟨hcalls,-⟩ : (c.thread T).calls = [] ∧ _ := by
      simpa [Thread.idle] using (Bool.and_eq_true_iff.mp hidle).1
    -- the section goes on, with the extent read
    have hread : ∀ cache, (∀ l, lid ≠ l → cache[l]? = c.localExtent[l]?) →
        PartyStep .plain (c.party lid (some (.thread T, .holding read))) t[lid]?
          ⟨c.disconnected, (c.lock lid).state, (c.lock lid).stale, cache[lid]?,
            some (.thread T, .holding true)⟩ t[lid]? →
        Simulates c t T m ((c.setCache cache).setThread T
          ⟨[], (lid, true) :: (c.thread T).drop lid, none⟩) t := by
      intro cache hcache hstep
      apply become_simulates lid
      · constructor <;> simp_all [Thread.marks]
      · intro l hl
        simp [Thread.roles, hcalls, holdRoles_drop, hl]
      · intro l hl; rfl
      · intro l hl; exact hcache l hl
      · intro l hl; rfl
      · intro g ha hfits
        obtain ⟨rfl,-,-⟩ := section_self ha hsec
        refine ⟨.holding true, .plain, Or.inr ⟨_, rfl⟩, ?_, trivial, hstep⟩
        simp [Thread.roles, holdRoles_drop]
    split at h
    · rename_i e he
      cases h
      obtain ⟨e',he',hsame⟩ := finish_same op c.localExtent now he
      apply hread
      · intro l hl; exact finish_other op c.localExtent now hl
      · rw [he']
        simp only [Client.party, he]
        exact .read hsame
    · rename_i he
      split at h
      · rename_i ht
        cases h
        apply hread c.localExtent (fun _ _ => rfl)
        have ht' : t[lid]? = none := by simpa [Table.get] using ht
        simp only [Client.party, he, ht']
        exact .absent
      · rename_i buf ht
        cases h
        obtain ⟨f,hf,rfl⟩ := Option.map_eq_some_iff.mp ht
        apply become_simulates lid
        · constructor <;> simp_all [Thread.marks, Call.marks, Call.reconnects]
        · intro l hl
          simp [Thread.roles, hcalls, holdRoles_drop, hl]
        · intro l hl; rfl
        · intro l hl; rfl
        · intro l hl; rfl
        · intro g ha hfits
          obtain ⟨rfl,-,-⟩ := section_self ha hsec
          refine ⟨.loading read f.buf, .plain, Or.inr ⟨_, rfl⟩, ?_, trivial, ?_⟩
          · simp [Thread.roles, holdRoles_drop]
          · rw [party_setEcMutex, party_setThread, hf]
            simp only [Client.party, he]
            exact .load

theorem loadAttr_simulates (h : c.loadAttr t now T = some (.done c' t')) :
    Simulates c t T m c' t' := by
  unfold Client.loadAttr at h
  dsimp only at h
  split at h
  · rename_i lid read buf op hcalls
    split at h
    · cases h
    · rename_i attr hattr
      cases h
      obtain ⟨f,hf,rfl⟩ := Option.map_eq_some_iff.mp hattr
      have he : (c.localExtent.load lid buf f.a)[lid]? = some ⟨false, buf, f.a⟩ := by
        simp [Cache.load]
      obtain ⟨e',he',hd,hb,hv⟩ := finish_same op (c.localExtent.load lid buf f.a) now he
      apply become_simulates lid
      · constructor <;> simp_all [Thread.marks, Call.marks, Call.reconnects]
      · intro l hl
        simp [Thread.roles, hcalls, hl]
      · intro l hl; rfl
      · intro l hl
        simp [finish_other op _ now hl, Cache.load, hl]
      · intro l hl; rfl
      · intro g ha hfits
        obtain ⟨rfl,hr⟩ := agents_top (r := .loading read buf) ha hcalls (by simp)
        refine ⟨.holding true, .plain, Or.inr ⟨_, rfl⟩, ?_, trivial, ?_⟩
        · simpa [Thread.roles, restRoles] using hr
        · rw [party_setEcMutex, party_setThread, party_setCache, he', hf]
          exact .loaded hd hb hv
  · cases h

theorem callRelease_simulates {unlink : Bool} {unlinking : Option ℕ} {read : Bool}
    (hsec : (c.thread T).section? lid = some read) (hcalls : (c.thread T).calls = []) :
    Simulates c t T (.callRelease lid unlink) ((c.setThread T ⟨[.release lid .start],
      (c.thread T).drop lid, unlinking⟩).setLcMutex (some T)) t := by
  apply become_simulates lid
  · constructor <;> simp_all [Thread.marks, Call.reconnects]
  · intro l hl
    simp [Thread.roles, hcalls, holdRoles_drop, hl]
  · intro l hl; rfl
  · intro l hl; rfl
  · intro l hl; rfl
  · intro g ha hfits
    obtain ⟨rfl,-,-⟩ := section_self ha hsec
    refine ⟨.leaving, .quit read, Or.inr ⟨_, rfl⟩, ?_, Or.inl ⟨unlink, rfl, hsec⟩, ?_⟩
    · simp [Thread.roles, holdRoles_drop, ReleasePc.role]
    · rw [party_setLcMutex, party_setThread]
      exact .leave

theorem put_simulates {buf : Str} {read : Bool} (hsec : (c.thread T).section? lid = some read) :
    Simulates c t T (.put lid buf) (c.setCache (c.localExtent.put lid buf now)) t := by
  have honly : OnlyThread T c (c.setCache (c.localExtent.put lid buf now)) :=
    ⟨fun _ _ => rfl, fun _ => rfl, id, rfl⟩
  refine ⟨honly, ?_⟩
  intro l g ha _
  by_cases hl : lid = l
  · subst hl
    obtain ⟨rfl,-,-⟩ := section_self ha hsec
    obtain ⟨e,he,hd,hb,-,hv,-⟩ := cache_put_self c.localExtent lid buf now
    refine ⟨_, ha.same honly.others rfl, Or.inr ⟨.wrote read buf, ⟨rfl, hsec⟩, ?_⟩⟩
    rw [party_setCache, he]
    exact .put hd hb hv
  · apply follows_same honly ha rfl
    · rfl
    · exact cache_put_other c.localExtent buf now hl
    · rfl

theorem unlinkRemove_simulates {cache : Cache} (hcalls : (c.thread T).calls = [])
    (hc : c.localExtent.remove lid = some cache) :
    Simulates c t T (.unlinkRemove lid)
      ((c.setCache cache).setThread T ⟨[], (c.thread T).held, none⟩) t := by
  obtain rfl : cache = c.localExtent.erase lid := by
    unfold Cache.remove at hc
    split at hc
    · exact (Option.some.inj hc).symm
    · cases hc
  have honly : OnlyThread T c ((c.setCache (c.localExtent.erase lid)).setThread T
      ⟨[], (c.thread T).held, none⟩) := by
    constructor <;> simp_all [Thread.marks]
  have hrol : ∀ l, ((((c.setCache (c.localExtent.erase lid)).setThread T
      ⟨[], (c.thread T).held, none⟩).thread T).roles l) = (c.thread T).roles l := by
    intro l
    simp [Thread.roles, hcalls]
  refine ⟨honly, ?_⟩
  intro l g ha _
  by_cases hl : lid = l
  · subst hl
    refine ⟨g, ha.same honly.others (hrol lid), Or.inr ⟨.unlinked, rfl, ?_⟩⟩
    rw [party_setThread, party_setCache, cache_getElem_erase, if_pos rfl]
    exact .unlinkRemove
  · apply follows_same honly ha (hrol l)
    · rfl
    · simp [hl]
    · rfl

/-- A loop over all of `lock_status_` changes every entry alike. -/
theorem entry_map (locks : LockMap) (f : LockState → LockState) (hf : f {} = {}) (l : ℕ) :
    LockMap.entry (locks.map (fun _ s => f s)) l = f (locks.entry l) := by
  unfold LockMap.entry
  rw [ExtTreeMap.getElem?_map]
  rcases Option.eq_none_or_eq_some locks[l]? with h | ⟨s,h⟩ <;> simp [h, hf]

/-- `disconnect(false)` marks what the client still has as stale. -/
theorem reconnect_follows (hoff : c.disconnected = true) (hcalls : (c.thread T).calls = [])
    (h : c.reconnect t T = .done c' t') (ha : c.Agents l g) :
    Follows (Explains c t T m l) c t c' t' l g := by
  unfold Client.reconnect at h
  split_ifs at h
  cases h
  refine ⟨g, ?_, Or.inr ⟨.plain, trivial, ?_⟩⟩
  · apply ha.same (T := T)
    · intro U hU
      simp only [thread_setLcMutex, thread_setCalls, if_neg hU]
      rfl
    · rw [thread_setLcMutex, roles_setCalls, Thread.roles, hcalls]
      rfl
  · have hlock := entry_map c.lockStatus
      (fun s => if s.state = .none then s else ⟨s.state, true⟩) rfl l
    have hstale : (if (c.lock l).state = .none then c.lock l else ⟨(c.lock l).state, true⟩) =
        (⟨(c.lock l).state, (c.lock l).stale || (c.lock l).state ≠ .none⟩ : LockState) := by
      by_cases hs : (c.lock l).state = .none <;> simp [hs]
      rw [← hs]
    have hparty : ∀ c₁ : Client, c₁.lockStatus.entry l =
        (⟨(c.lock l).state, (c.lock l).stale || (c.lock l).state ≠ .none⟩ : LockState) →
        c₁.disconnected = false → c₁.localExtent = c.localExtent →
        c₁.party l g = ⟨false, (c.lock l).state, (c.lock l).stale || (c.lock l).state ≠ .none,
          c.localExtent[l]?, g⟩ := by
      intro c₁ h1 h2 h3
      simp only [Client.party, Client.lock, h1, h2, h3]
    rw [party_setLcMutex, party_setCalls]
    rw [hparty { c with disconnected := false, lockStatus := c.lockStatus.map (fun _ s =>
      if s.state = .none then s else ⟨s.state, true⟩) } (hlock.trans hstale) rfl rfl]
    simp only [Client.party, hoff]
    exact .reconnect

theorem move_simulates (hfit : c.Fit) (hset : c.Settled) (hm : m ≠ .reconnect)
    (h : c.move t now T m = some (.done c' t')) : Simulates c t T m c' t' := by
  cases m with
  | callAcquire lid =>
    simp only [Client.move] at h
    split_ifs at h with hidle
    cases h
    obtain ⟨hcalls,-⟩ : (c.thread T).calls = [] ∧ _ := by
      simpa [Thread.idle] using (Bool.and_eq_true_iff.mp hidle).1
    apply same_simulates
    · constructor <;> simp_all [Thread.marks, Call.marks, Call.reconnects]
    · intro l
      simp [Thread.roles, hcalls, AcquirePc.roles]
    · intro l; rfl
    · rfl
    · rfl
  | callRelease lid unlink =>
    simp only [Client.move] at h
    split at h
    · cases h
    · rename_i hsec
      split_ifs at h with hidle
      all_goals
        cases h
        simp only [Bool.and_eq_true, decide_eq_true_eq] at hidle
        exact callRelease_simulates hsec hidle.1.1
  | turn a b =>
    simp only [Client.move] at h
    split_ifs at h
    exact turn_simulates hfit hset h
  | wake =>
    simp only [Client.move] at h
    split_ifs at h
    exact wake_simulates hfit h
  | access lid op => exact access_simulates h
  | loadAttr => exact loadAttr_simulates h
  | put lid buf =>
    simp only [Client.move] at h
    split at h
    · cases h
    · rename_i hsec
      split_ifs at h
      cases h
      exact put_simulates hsec
  | unlinkRemove lid =>
    simp only [Client.move] at h
    split_ifs at h with hidle
    simp only [Bool.and_eq_true, decide_eq_true_eq] at hidle
    split at h
    · cases h
    · rename_i cache hc
      cases h
      exact unlinkRemove_simulates hidle.1.1 hc
  | reconnect => exact absurd rfl hm

/-- Every move of a thread follows the protocol of every lock. It leaves the revokes that requests
wait for as they are, and the client settled. -/
theorem move_follows (hfit : c.Fit) (hset : c.Settled)
    (h : c.move t now T m = some (.done c' t')) :
    (∀ l g, c.Agents l g → (c.party l g).Fits → Follows (Explains c t T m l) c t c' t' l g) ∧
      (∀ U l, (c'.thread U).marks l = (c.thread U).marks l) ∧ c'.Settled := by
  by_cases hm : m = .reconnect
  · subst hm
    simp only [Client.move] at h
    split_ifs at h with hidle
    simp only [Bool.and_eq_true, decide_eq_true_eq, Thread.idle] at hidle
    obtain ⟨⟨⟨hcalls,-⟩,-⟩,hoff⟩ := hidle
    replace h := Option.some.inj h
    refine ⟨fun l g ha _ => reconnect_follows hoff hcalls h ha, ?_⟩
    unfold Client.reconnect at h
    split_ifs at h
    cases h
    constructor
    case right => intro U _; rfl
    intro U l
    by_cases hU : T = U
    · subst hU
      simp [Thread.marks, hcalls, Call.marks]
    · simp only [thread_setLcMutex, thread_setCalls, if_neg hU]
      rfl
  · obtain ⟨honly,hfollow⟩ := move_simulates hfit hset hm h
    refine ⟨hfollow, ?_, ?_⟩
    · intro U l
      by_cases hU : T = U
      · subst hU; exact honly.marks l
      · rw [honly.others U hU]
    · intro U hr
      rw [honly.offline]
      by_cases hU : T = U
      · subst hU; exact hset T (honly.reconnects hr)
      · rw [honly.others U hU] at hr
        exact hset U hr

end

end DisconnectedYfs.YFS
