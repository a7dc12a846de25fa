import Obsetync.Pull.Pages

namespace Obsetync.Pull
open SyncBase DiffPage List

section
variable {st : Setting} {starts : List Start} {state : BaseState} {s : System} {w : World}
  {pull : Paged} {work : Applying} {delta : FileDelta} {outcome : ContentOutcome}

theorem perform_failed (hlen : calls.length ≤ 1) (h : (perform env w calls).2 = false) :
    (perform env w calls).1 = w := by
  match calls, hlen with
  | [], _ => rfl
  | [call], _ =>
    rw [perform] at h ⊢
    split at h
    · rfl
    · cases h

theorem contentCalls_spec (hkind : delta.action = 1 ∨ delta.action = 2)
    (h : contentCalls entries delta outcome = some calls) : calls.length ≤ 1 ∧
      (∀ call ∈ calls, ∃ pair ∈ keptAssignments delta, assignmentOf call = some pair) ∧
      (outcome.applied = true → ∀ (env : Env) (state : BaseState), state.entries = entries →
        Settled (calls.foldl (Setter.apply env) state).entries delta) := by
  have hcontent (mtime : Int) (size : Nat) : (setContent delta mtime size).length ≤ 1 ∧
      (∀ call ∈ setContent delta mtime size,
        ∃ pair ∈ keptAssignments delta, assignmentOf call = some pair) ∧
      ∀ (env : Env) (state : BaseState),
        Settled ((setContent delta mtime size).foldl (Setter.apply env) state).entries delta := by
    have hne : delta.action ≠ 3 := by rcases hkind with h | h <;> rw [h] <;> decide
    obtain ⟨call, hash, hcall, hassign, hpair, hpairs⟩ := setContent_eq hne mtime size
    rw [hcall]
    refine ⟨le_rfl, ?_, ?_⟩
    · intro c hc
      rw [mem_singleton.1 hc]
      exact ⟨_, hpair, hassign⟩
    · intro env state pair hmem
      rcases hpairs pair hmem with rfl | ⟨hfour, -⟩
      · exact (apply_entries hassign).1
      · rcases hkind with h | h <;> cases h.symm.trans hfour
  cases outcome with
  | deferred =>
    obtain rfl := Option.some.inj h
    exact ⟨Nat.zero_le _, nofun, nofun⟩
  | failed =>
    obtain rfl := Option.some.inj h
    exact ⟨Nat.zero_le _, nofun, nofun⟩
  | written mtime size bytes =>
    obtain rfl := Option.some.inj h
    obtain ⟨hlen, hcalls, hsettled⟩ := hcontent mtime size
    exact ⟨hlen, hcalls, fun _ env state _ => hsettled env state⟩
  | present mtime size =>
    rw [contentCalls] at h
    split_ifs at h with hhit hcurrent
    · obtain rfl := Option.some.inj h
      refine ⟨Nat.zero_le _, nofun, fun _ env state he => ?_⟩
      have hhash : cacheHit entries delta mtime size = true := by simpa using hhit
      rw [foldl_nil, he]
      rw [cacheHit] at hhash
      split at hhash
      · next hash _ _ entry hcontent hentry =>
        have heq : entry.hash = hexEncode hash.val := by
          simp only [Bool.and_eq_true, decide_eq_true_eq] at hhash
          exact hhash.1.1
        intro pair hpair
        have hpath : pair = (delta.path, some (hexEncode hash.val)) := by
          cases delta with
          | added path hash' size' mtimeMs =>
            cases hcontent
            exact mem_singleton.1 hpair
          | modified path hash' size' mtimeMs =>
            cases hcontent
            exact mem_singleton.1 hpair
          | deleted path hash' => cases hcontent
          | renamed path oldPath hash' size' mtimeMs => rcases hkind with h | h <;> cases h
        rw [hpath, hashes, hentry, Option.map_some, heq]
      · cases hhash
    · obtain rfl := Option.some.inj h
      obtain ⟨hlen, hcalls, hsettled⟩ := hcontent mtime size
      exact ⟨hlen, hcalls, fun _ env state _ => hsettled env state⟩

theorem settle_spec (work : Applying) (delta : FileDelta) (retried : Bool)
    (outcome : ContentOutcome) (returned : Bool) :
    (work.settle delta retried outcome returned).renames = work.renames ∧
    (work.settle delta retried outcome returned).moved = work.moved ∧
    (work.settle delta retried outcome returned).deletions = work.deletions ∧
    (work.settle delta retried outcome returned).content = work.content ∧
    (work.settle delta retried outcome returned).ignoredUpserts = work.ignoredUpserts ∧
    (work.settle delta retried outcome returned).nextCursor = work.nextCursor ∧
    (∀ d, d ∈ (work.settle delta retried outcome returned).failed → d ∈ work.failed ∨ d = delta) ∧
    (∀ d, d ∈ work.failed → d ∈ (work.settle delta retried outcome returned).failed) ∧
    (∀ d, d ∈ work.deferred → d ∈ (work.settle delta retried outcome returned).deferred) ∧
    (delta ∈ (work.settle delta retried outcome returned).failed ∨
      delta ∈ (work.settle delta retried outcome returned).deferred ∨
      outcome.applied = true ∧ returned = true) := by
  unfold Applying.settle
  split
  · simp +contextual
  · cases retried <;> simp +contextual
  · simp +contextual [ContentOutcome.applied]
  · simp +contextual [ContentOutcome.applied]
  · simp +contextual [ContentOutcome.applied]
  · cases retried <;> simp +contextual

theorem SysOk.download (h : SysOk st s) (hp : s.pull = some pull)
    (hstage : pull.stage = .applying full) (hdelta : delta ∈ full.content ∨ delta ∈ full.failed)
    (hwork : work.renames = full.renames ∧ work.moved = full.moved ∧
      work.deletions = full.deletions ∧ work.deferred = full.deferred ∧
      work.ignoredUpserts = full.ignoredUpserts ∧ work.nextCursor = full.nextCursor)
    (hsub : ∀ d, d ∈ work.content ∨ d ∈ work.failed → d ∈ full.content ∨ d ∈ full.failed)
    (hrest : ∀ d, d ∈ full.content ∨ d ∈ full.failed → d = delta ∨ d ∈ work.content ∨ d ∈ work.failed)
    (retried : Bool) (outcome : ContentOutcome) :
    SysOk st (s.download st pull work delta retried outcome) := by
  obtain ⟨toRoot, before, taken, left, hto, hat⟩ := (h.pull pull hp).atWork hstage
  obtain ⟨hrenames, hmoved, hdeletions, hdeferred, hupserts, hcursor⟩ := hwork
  rw [System.download]
  cases hcalls : contentCalls s.world.base.visible.entries delta outcome with
  | none => exact h
  | some calls =>
    dsimp only
    obtain ⟨hlen, hassign, hsettled⟩ := contentCalls_spec (hat.ok.content delta hdelta) hcalls
    obtain ⟨hsound, hdone⟩ := h.sound.perform hat (by
      intro call hcall _ state hcheck hstate
      obtain ⟨pair, hpair, hcall'⟩ := hassign call hcall
      exact AtWork.call (pending_of_content hdelta) hcall' hpair hcheck hstate)
    obtain ⟨hr, hm, hd, hc, hu, hn, hfailed, hfailed', hdeferred', hkept⟩ :=
      settle_spec work delta retried outcome (perform st.env s.world calls).2
    have hpull : PullOk st s.starts (perform st.env s.world calls).1.base.visible
        (perform st.env s.world calls).1.calls { pull with
          stage := .applying (work.settle delta retried outcome (perform st.env s.world calls).2) } := by
      have hadvance {entries : String → Option BaseEntry}
          (hok : WorkOk st.isIgnored taken entries full)
          (happlied : outcome.applied = true → (perform st.env s.world calls).2 = true →
            Settled entries delta) :
          WorkOk st.isIgnored taken entries
            (work.settle delta retried outcome (perform st.env s.world calls).2) := by
        apply hok.advance
        · exact fun d hd' => hrenames ▸ hr ▸ hd'
        · intro d hd'
          rw [hm, hmoved] at hd'
          exact ⟨.inr hd', hok.half d hd'⟩
        · exact fun d hd' => hdeletions ▸ hd ▸ hd'
        · intro d hd'
          rcases hd' with hd' | hd'
          · exact hsub d (.inl (hc ▸ hd'))
          · rcases hfailed d hd' with hf | rfl
            · exact hsub d (.inr hf)
            · exact hdelta
        · exact hu.trans hupserts
        · intro d hd'
          rw [Applying.mem_pending] at hd'
          rw [Applying.mem_pending, hr, hm, hd, hc, hrenames, hmoved, hdeletions]
          rcases hd' with (hd' | hd' | hd' | hd') | hd'
          · exact .inl (.inl hd')
          · exact .inl (.inr (.inl hd'))
          · exact .inl (.inr (.inr (.inl hd')))
          · rcases hrest d hd' with rfl | hin | hin
            · rcases hkept with hf | hf | ⟨ha, hret⟩
              · exact .inl (.inr (.inr (.inr (.inr hf))))
              · exact .inr (.inl hf)
              · exact .inr (.inr (happlied ha hret))
            · exact .inl (.inr (.inr (.inr (.inl hin))))
            · exact .inl (.inr (.inr (.inr (.inr (hfailed' d hin)))))
          · exact .inr (.inl (hdeferred' d (hdeferred ▸ hd')))
      cases hreturned : (perform st.env s.world calls).2 with
      | true =>
        obtain ⟨hstate, hitems, hvis⟩ := hdone hreturned
        rw [hitems]
        have hok := hadvance hstate.ok fun ha _ => hvis ▸ hsettled ha st.env _ rfl
        rw [hreturned] at hok hu hn
        apply hstate.pullOk (h.pull pull hp) hstage hto hok (hn.trans hcursor) (hu.trans hupserts)
        intro item hitem
        obtain ⟨call, hcall, rfl⟩ := mem_map.1 hitem
        obtain ⟨pair, -, hcall'⟩ := hassign call hcall
        exact not_cursor_of_assignment hcall'
      | false =>
        rw [perform_failed hlen hreturned]
        have hok := hadvance hat.ok fun _ hret => by
          rw [hreturned] at hret
          cases hret
        rw [hreturned] at hok hu hn
        have hpull := @AtWork.pullOk _ _ _ _ _ _ _ _ _ _ _ _ hat (h.pull pull hp) hstage hto hok (hn.trans hcursor) (hu.trans hupserts) [] nofun
        rw [append_nil] at hpull
        exact hpull
    split_ifs
    · exact SysOk.awaits hsound hpull (.inl rfl) _
    · exact SysOk.goOn hsound hpull

theorem mem_eraseIdx_or {l : List α} (hget : l[i]? = some a) (hd : d ∈ l) :
    d = a ∨ d ∈ l.eraseIdx i := by
  obtain ⟨hlt, rfl⟩ := List.getElem?_eq_some_iff.1 hget
  obtain ⟨j, hj, rfl⟩ := getElem_of_mem hd
  by_cases hij : j = i
  · exact .inl (by simp [hij])
  · exact .inr (mem_eraseIdx_iff_getElem.2 ⟨j, hj, hij, rfl⟩)

theorem apply_content (h : SysOk st s) (hp : s.pull = some pull)
    (hstage : pull.stage = .applying work) (index : Nat) (outcome : ContentOutcome) :
    SysOk st (s.apply st pull work (.content index outcome)) := by
  unfold System.apply
  dsimp only
  split
  · next delta hrenames hmoved hdeletions hget =>
    apply h.download hp hstage (.inl (mem_of_getElem? hget))
      (by exact ⟨rfl, rfl, rfl, rfl, rfl, rfl⟩)
    · exact fun d hd => hd.imp_left mem_of_mem_eraseIdx
    · intro d hd
      rcases hd with hd | hd
      · exact (mem_eraseIdx_or hget hd).imp_right .inl
      · exact .inr (.inr hd)
  · exact h

theorem apply_retry (h : SysOk st s) (hp : s.pull = some pull)
    (hstage : pull.stage = .applying work) (outcome : ContentOutcome) :
    SysOk st (s.apply st pull work (.retry outcome)) := by
  unfold System.apply
  dsimp only
  split
  · next delta failed hrenames hmoved hdeletions hcontent hfailed =>
    have hmem : delta ∈ work.failed := hfailed ▸ mem_cons_self
    apply h.download hp hstage (.inr hmem) (by exact ⟨rfl, rfl, rfl, rfl, rfl, rfl⟩)
    · exact fun d hd => hd.imp_right fun hd => hfailed ▸ mem_cons_of_mem _ hd
    · intro d hd
      rcases hd with hd | hd
      · exact .inr (.inl hd)
      · rw [hfailed] at hd
        exact (mem_cons.1 hd).imp_right .inr
  · exact h

theorem apply_batch (h : SysOk st s) (hp : s.pull = some pull) :
    SysOk st (s.apply st pull work .batch) := by
  unfold System.apply
  dsimp only
  split
  · exact SysOk.awaits h.sound (h.pull pull hp) (.inl rfl) _
  · exact h

end

end Obsetync.Pull
