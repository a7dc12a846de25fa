import Obsetync.Pull.Downloads

namespace Obsetync.Pull
open SyncBase DiffPage List

section
variable {st : Setting} {starts : List Start} {state : BaseState} {s : System} {w : World}
  {pull : Paged} {work : Applying} {calls : List Item} {toRoot : FileHash}

theorem cursorAfter_append (hprogress : taken = [] → left = []) :
    cursorAfter fromRoot toRoot [] (before ++ taken) left =
      cursorAfter fromRoot toRoot [] taken left := by
  rw [cursorAfter, cursorAfter, getLast?_append]
  cases hlast : taken.getLast? with
  | some delta => rfl
  | none =>
    obtain rfl := getLast?_eq_none_iff.1 hlast
    rw [hprogress rfl]
    cases before.getLast? <;> rfl

theorem WorkOk.finished (h : WorkOk isIgnored taken entries work) (hdone : work.done = true)
    (hdeferred : work.deferred = []) : ∀ record ∈ taken, Done isIgnored entries record := by
  simp only [Applying.done, Bool.and_eq_true, List.isEmpty_iff, Option.isNone_iff_eq_none] at hdone
  obtain ⟨⟨⟨⟨hrenames, hmoved⟩, hdeletions⟩, hcontent⟩, hfailed⟩ := hdone
  intro record hrecord
  rcases h.covered record hrecord with hd | ⟨delta, -, hpending | hmem⟩
  · exact hd
  · rw [Applying.mem_pending, hrenames, hmoved, hdeletions, hcontent, hfailed] at hpending
    simp at hpending
  · rw [hdeferred] at hmem
    cases hmem

theorem AtWork.afterPage (h : AtWork st starts pull toRoot before taken left work state)
    (hp : PullOk st starts state calls pull) (hstage : pull.stage = .applying work)
    (hto : pull.toRoot = some toRoot) (hdone : work.done = true) (hadMtime : Bool)
    (he : state'.entries = state.entries)
    (hkey : Track st starts pull.vaultId pull.fromRoot toRoot state')
    (hitems : (pull.afterPage work hadMtime).durableCursorAllowed = false → items = []) :
    PullOk st starts state' (calls ++ items) (pull.afterPage work hadMtime) := by
  have hallowed (ha : (pull.afterPage work hadMtime).durableCursorAllowed = true) :
      pull.durableCursorAllowed = true ∧ work.deferred = [] ∧ work.ignoredUpserts = 0 := by
    simpa [Paged.afterPage, Bool.and_eq_true, and_assoc] using ha
  have hempty := (@cursorAfter_isEmpty pull.fromRoot toRoot) h.progress
  rw [← h.cursor_eq] at hempty
  refine ⟨fun hnone => ?_, fun target htarget => ⟨?_, ?_⟩, fun ha => ?_, ?_⟩
  · cases hto.symm.trans hnone
  · obtain rfl := Option.some.inj (hto.symm.trans htarget)
    exact hkey
  · obtain rfl := Option.some.inj (hto.symm.trans htarget)
    refine ⟨before ++ taken, left, h.records_eq.trans (append_assoc _ _ _).symm, ?_, ?_, ?_⟩
    · intro hzero delta hdelta
      obtain ⟨hzero, hlen⟩ := Nat.add_eq_zero_iff.1 hzero
      rw [he]
      rcases mem_append.1 hdelta with hold | hnew
      · exact h.done hzero delta hold
      · exact h.ok.finished hdone (length_eq_zero_iff.1 hlen) delta hnew
    · intro ha delta hdelta
      obtain ⟨hprev, -, hupserts⟩ := hallowed ha
      rcases mem_append.1 hdelta with hold | hnew
      · exact h.kept hprev delta hold
      · exact h.ok.counted hupserts delta hnew
    · change StageOk _ _ _ _ _ _ work.nextCursor (if work.nextCursor.isEmpty then _ else _)
      rw [hempty]
      cases left with
      | nil => exact rfl
      | cons next left =>
        have htaken : taken ≠ [] := fun hnil => cons_ne_nil _ _ (h.progress hnil)
        exact h.cursor_eq.trans (asks_cursorAfter htaken (cons_ne_nil _ _)).1
  · obtain ⟨hprev, hdeferred, hupserts⟩ := hallowed ha
    obtain ⟨hzero, homitted⟩ := hp.allowed hprev
    rw [hstage] at homitted
    refine ⟨?_, ?_⟩
    · change pull.deferredCount + work.deferred.length = 0
      rw [hzero, hdeferred]
      rfl
    · change pull.remoteOmissionCount = Stage.omissions (if work.nextCursor.isEmpty then _ else _)
      rw [homitted]
      change work.ignoredUpserts = _
      rw [hupserts]
      split_ifs <;> rfl
  · intro hstalled item hitem
    rcases hstalled with ha | hpage
    · rw [hitems ha, append_nil] at hitem
      exact hp.quiet (.inr (by rw [hstage]; rfl)) item hitem
    · change Stage.inPage (if work.nextCursor.isEmpty then _ else _) = true at hpage
      split_ifs at hpage <;> cases hpage

theorem apply_pageDone (h : SysOk st s) (hp : s.pull = some pull)
    (hstage : pull.stage = .applying work) (hadMtime : Bool) :
    SysOk st (s.apply st pull work (.pageDone hadMtime)) := by
  obtain ⟨toRoot, before, taken, left, hto, hat⟩ := (h.pull pull hp).atWork hstage
  unfold System.apply
  dsimp only
  rw [hto]
  dsimp only
  split_ifs with hopen hallowed
  · exact h
  · have hdone : work.done = true := by simpa using hopen
    have hparts : pull.durableCursorAllowed = true ∧ work.deferred = [] ∧
        work.ignoredUpserts = 0 := by
      simpa [Paged.afterPage, Bool.and_eq_true, and_assoc] using hallowed
    obtain ⟨hprev, hdeferred, hupserts⟩ := hparts
    obtain ⟨hzero, -⟩ := (h.pull pull hp).allowed hprev
    have htrack {state : BaseState} (he : state.entries = s.world.base.visible.entries)
        (hc : state.data.diffPageCheckpoint =
          some ((pull.afterPage work hadMtime).nextCheckpoint toRoot)) :
        Track st s.starts pull.vaultId pull.fromRoot toRoot state := by
      refine ⟨fun checkpoint hcheck => ?_, hat.track.started.of_entries he⟩
      obtain rfl := Option.some.inj (hc.symm.trans hcheck)
      exact ⟨rfl, rfl, rfl⟩
    apply h.calling (Q := fun state => state.entries = s.world.base.visible.entries) rfl
    · intro call hcall hadmissible state _ he
      rw [mem_singleton.1 hcall] at hadmissible ⊢
      refine ⟨fun checkpoint hcheck => ?_, he⟩
      obtain rfl := Option.some.inj hcheck
      refine ⟨hadmissible, pull.fromRoot, toRoot, before ++ taken, left, rfl, rfl, ?_, ?_, ?_, ?_, ?_,
        ?_, hat.track.started.of_entries he⟩
      · exact hat.records_eq.trans (append_assoc _ _ _).symm
      · rw [cursorAfter_append hat.progress, ← hat.cursor_eq]
        rfl
      · change work.nextCursor.isEmpty = _
        rw [hat.cursor_eq, cursorAfter_isEmpty hat.progress]
      · intro hnil
        exact hat.progress (append_eq_nil_iff.1 hnil).2
      · intro delta hdelta
        change Done st.isIgnored state.entries delta
        rw [he]
        rcases mem_append.1 hdelta with hold | hnew
        · exact hat.done hzero delta hold
        · exact hat.ok.finished hdone hdeferred delta hnew
      · intro delta hdelta
        rcases mem_append.1 hdelta with hold | hnew
        · exact hat.kept hprev delta hold
        · exact hat.ok.counted hupserts delta hnew
    · intro w hw he hcalls hvis
      apply SysOk.awaits hw _ (.inl rfl)
      rw [hcalls]
      apply hat.afterPage (h.pull pull hp) hstage hto hdone hadMtime he
      · apply htrack he
        rw [hvis]
        rfl
      · intro hfalse
        rw [hallowed] at hfalse
        cases hfalse
  · have hdone : work.done = true := by simpa using hopen
    apply h.calling (Q := fun _ => True) trivial (fun _ hcall => by cases hcall)
    intro w hw _ hcalls hvis
    apply SysOk.awaits hw _ (.inl rfl)
    rw [hcalls]
    apply hat.afterPage (h.pull pull hp) hstage hto hdone hadMtime
    · rw [hvis]
      rfl
    · rw [hvis]
      exact hat.track
    · exact fun _ => rfl

theorem SysOk.apply (h : SysOk st s) (hp : s.pull = some pull)
    (hstage : pull.stage = .applying work) (event : Event) :
    SysOk st (s.apply st pull work event) := by
  cases event with
  | deferRename => exact apply_deferRename h hp hstage
  | moveOut => exact apply_moveOut h hp hstage
  | moveIn mtime size => exact apply_moveIn h hp hstage mtime size
  | deferDelete => exact apply_deferDelete h hp hstage
  | delete => exact apply_delete h hp hstage
  | content index outcome => exact apply_content h hp hstage index outcome
  | batch => exact apply_batch h hp
  | retry outcome => exact apply_retry h hp hstage outcome
  | pageDone hadMtime => exact apply_pageDone h hp hstage hadMtime
  | _ => exact h

theorem keeps_setting {call : Setter} (h : call = .setVerifiedBaseRequired true ∨
    ∃ timestamp, call = .setLastSyncTimestamp timestamp) (state : BaseState) :
    (call.apply st.env state).entries = state.entries ∧
      (call.apply st.env state).data.diffPageCheckpoint = state.data.diffPageCheckpoint := by
  rcases h with rfl | ⟨timestamp, rfl⟩ <;> exact ⟨rfl, rfl⟩

theorem pullOk_paged (h : SysOk st s) (hp : s.pull = some pull) (hstage : pull.stage = .fetching)
    {target : FileHash} {start : Nat} (count : Nat)
    (hplace : (st.diff pull.vaultId pull.fromRoot (pull.toRoot.getD target)).place pull.fromRoot
      (pull.toRoot.getD target) pull.cursor = some start)
    (hsub : s.starts ⊆ starts) (hstart : pull.toRoot = none → ⟨pull.vaultId, pull.fromRoot,
      pull.toRoot.getD target, s.world.base.visible.entries⟩ ∈ starts) {items : List Item}
    (hitems : ∀ item ∈ items, isCursor item = false)
    (he : state.entries = s.world.base.visible.entries)
    (hc : state.data.diffPageCheckpoint = s.world.base.visible.data.diffPageCheckpoint) :
    PullOk st starts state (s.world.calls ++ items) { pull with
      toRoot := some (pull.toRoot.getD target)
      stage := .paged
        (((st.diff pull.vaultId pull.fromRoot (pull.toRoot.getD target)).records.drop start).take
          (count + 1))
        (cursorAfter pull.fromRoot (pull.toRoot.getD target) []
          (((st.diff pull.vaultId pull.fromRoot (pull.toRoot.getD target)).records.drop start).take
            (count + 1))
          (((st.diff pull.vaultId pull.fromRoot (pull.toRoot.getD target)).records.drop start).drop
            (count + 1)))
      stalledAt := if pull.durableCursorAllowed then s.world.calls.length else pull.stalledAt } := by
  have hok := h.pull pull hp
  generalize hrecords : (st.diff pull.vaultId pull.fromRoot (pull.toRoot.getD target)) = diff at *
  -- the records before the cursor, whether this is the first page or not
  obtain ⟨before, rest, hsplit, hlen, hdone, hkept, htrack⟩ : ∃ before rest,
      diff.records = before ++ rest ∧ start = before.length ∧
      (pull.deferredCount = 0 → ∀ delta ∈ before, Done st.isIgnored state.entries delta) ∧
      (pull.durableCursorAllowed = true → ∀ delta ∈ before, omitted st.isIgnored delta = false) ∧
      Track st starts pull.vaultId pull.fromRoot (pull.toRoot.getD target) state := by
    cases hto : pull.toRoot with
    | none =>
      obtain ⟨hnone, hcursor, -⟩ := hok.fresh hto
      rw [hcursor] at hplace
      refine ⟨[], diff.records, rfl, (Option.some.inj hplace).symm, nofun, nofun, ⟨?_, ?_⟩⟩
      · intro checkpoint hcheck
        rw [hc, hnone] at hcheck
        cases hcheck
      · have hmem := hstart hto
        rw [hto] at hmem
        exact ⟨_, hmem, fun path _ => by rw [he]⟩
    | some toRoot =>
      obtain ⟨htrack, before, rest, hsplit, hdone, hkept, hplaced⟩ := hok.known toRoot hto
      rw [hto, Option.getD_some] at hrecords hplace
      rw [hrecords] at hsplit
      rw [hstage] at hplaced
      rw [show pull.cursor = _ from hplaced, diff.place_cursorTo hsplit] at hplace
      refine ⟨before, rest, hsplit, (Option.some.inj hplace).symm, he ▸ hdone, hkept, ?_⟩
      exact ⟨fun checkpoint hcheck => htrack.key checkpoint (hc ▸ hcheck),
        (htrack.started.mono hsub).of_entries he⟩
  have hdrop : diff.records.drop start = rest := by rw [hsplit, hlen, drop_left]
  rw [hdrop]
  refine ⟨nofun, fun toRoot hto => ?_, fun ha => ?_, ?_⟩
  · obtain rfl := Option.some.inj hto
    refine ⟨htrack, before, rest, ?_, hdone, hkept, rest.drop (count + 1),
      (take_append_drop _ _).symm, ?_, rfl⟩
    · change (st.diff pull.vaultId pull.fromRoot _).records = _
      rw [hrecords, hsplit]
    · intro hnil
      rw [take_eq_nil_iff] at hnil
      rcases hnil with hfalse | rfl
      · cases hfalse
      · exact drop_nil
  · obtain ⟨hzero, homitted⟩ := hok.allowed ha
    rw [hstage] at homitted
    exact ⟨hzero, homitted⟩
  · intro _ item hitem
    dsimp only at hitem
    split_ifs at hitem with ha
    · rw [drop_left] at hitem
      exact hitems item hitem
    · exact (hok.quiet.extend hitems) (.inl (eq_false_of_ne_true ha)) item hitem

theorem SysOk.page (h : SysOk st s) (hp : s.pull = some pull) (hstage : pull.stage = .fetching)
    (target : FileHash) (count : Nat) : SysOk st (s.page st pull target count) := by
  unfold System.page
  dsimp only
  cases hplace : (st.diff pull.vaultId pull.fromRoot (pull.toRoot.getD target)).place pull.fromRoot
      (pull.toRoot.getD target) pull.cursor with
  | none => exact SysOk.idle h.sound
  | some start =>
    dsimp only
    generalize hstarts : (if pull.toRoot.isNone = true then { s with
      starts := s.starts ++ [⟨pull.vaultId, pull.fromRoot, pull.toRoot.getD target,
        s.world.base.visible.entries⟩] } else s) = s'
    have hworld : s'.world = s.world ∧ s'.pull = s.pull ∧ s.starts ⊆ s'.starts ∧
        (pull.toRoot = none → ⟨pull.vaultId, pull.fromRoot, pull.toRoot.getD target,
          s.world.base.visible.entries⟩ ∈ s'.starts) := by
      rw [← hstarts]
      split_ifs with hnone
      · exact ⟨rfl, rfl, subset_append_left _ _, fun _ =>
          mem_append_right _ mem_cons_self⟩
      · exact ⟨rfl, rfl, List.Subset.refl _, fun hto => absurd hto (by simpa using hnone)⟩
    obtain ⟨hsame, -, hsub, hmem⟩ := hworld
    have hsound : Sound st s'.starts s'.world := hsame ▸ h.sound.mono hsub
    by_cases hfence : pull.localRootHash.isNone = true ∧
        (!s'.world.base.visible.data.verifiedBaseRequired) = true
    · rw [if_pos hfence]
      have hs : SysOk st { s' with pull := none } := SysOk.idle hsound
      change SysOk st (System.calling st.env { s' with pull := none } _ _)
      apply hs.calling (Q := fun state => state.entries = s.world.base.visible.entries ∧
        state.data.diffPageCheckpoint = s.world.base.visible.data.diffPageCheckpoint)
      · rw [← hsame]
        exact ⟨rfl, rfl⟩
      · intro call hcall _ state hcheck hq
        obtain ⟨he, hc⟩ := keeps_setting (.inl (mem_singleton.1 hcall)) state
        exact ⟨hcheck.of_eq he hc, he.trans hq.1, hc.trans hq.2⟩
      · intro w hw hq hcalls _
        apply SysOk.awaits hw _ (.inl rfl)
        rw [hcalls, hsame]
        apply pullOk_paged h hp hstage count hplace hsub hmem _ hq.1 hq.2
        intro item hitem
        rw [mem_singleton.1 hitem]
        rfl
    · rw [if_neg hfence]
      apply SysOk.goOn hsound
      have hpaged := @pullOk_paged _ _ s'.world.base.visible _ _ h hp hstage _ _ count hplace hsub hmem [] (fun _ hitem => by cases hitem) (by rw [hsame])
        (by rw [hsame])
      rw [append_nil] at hpaged
      rw [hsame] at hpaged ⊢
      exact hpaged

theorem untracked_mem (h : (scope isIgnored record).untracked = some path) :
    (path, none) ∈ assignments isIgnored record := by
  rw [assignments]
  cases hscope : scope isIgnored record with
  | kept delta =>
    rw [hscope] at h
    cases h
  | ignoredDelete p =>
    rw [hscope] at h
    obtain rfl := Option.some.inj h
    exact mem_cons_self
  | ignoredUpsert p =>
    rw [hscope] at h
    obtain rfl : p = some path := h
    exact mem_cons_self

theorem foldl_removeEntry (paths : List String) (h : path ∈ paths ∨ state.entries path = none) :
    ((paths.map Setter.removeEntry).foldl (Setter.apply env) state).entries path = none := by
  induction paths generalizing state with
  | nil => exact h.resolve_left not_mem_nil
  | cons p paths ih =>
    apply ih
    by_cases hp : path = p
    · right
      rw [hp]
      exact Function.update_self _ _ _
    · rcases h with hmem | hnone
      · exact .inl ((mem_cons.1 hmem).resolve_left hp)
      · right
        rw [← hnone]
        exact Function.update_of_ne hp _ _

theorem workOk_init (skipPaths : String → Bool) (nextCursor : Bytes)
    (h : ∀ path ∈ ignoredDeletesOf isIgnored deltas, entries path = none) :
    WorkOk isIgnored deltas entries (.init skipPaths (keptOf isIgnored deltas)
      (ignoredUpsertsOf isIgnored deltas) nextCursor) := by
  have hkept {delta : FileDelta} (hd : delta ∈ keptOf isIgnored deltas) :
      ∃ record ∈ deltas, scope isIgnored record = .kept delta := by
    obtain ⟨record, hrecord, hsome⟩ := mem_filterMap.1 hd
    refine ⟨record, hrecord, ?_⟩
    cases hscope : scope isIgnored record with
    | kept d =>
      rw [hscope] at hsome
      rw [Option.some.inj hsome]
    | _ =>
      rw [hscope] at hsome
      cases hsome
  constructor
  · intro delta hdelta
    apply hkept
    simp only [Applying.mem_pending, Applying.init, mem_append, mem_filter,
      Option.mem_def, reduceCtorEq, not_mem_nil, false_or, or_false] at hdelta
    tauto
  · intro delta hdelta
    rcases hdelta with hd | hd
    · exact of_decide_eq_true (mem_filter.1 hd).2
    · cases hd
  · nofun
  · exact fun delta hd => of_decide_eq_true (mem_filter.1 hd).2
  · intro delta hdelta
    rcases hdelta with hd | hd
    · rcases mem_append.1 hd with hd | hd
      · exact .inr (of_decide_eq_true (mem_filter.1 hd).2)
      · exact .inl (of_decide_eq_true (mem_filter.1 hd).2)
    · cases hd
  · intro record hrecord
    cases hscope : scope isIgnored record with
    | kept delta =>
      right
      refine ⟨delta, rfl, ?_⟩
      have hmem : delta ∈ keptOf isIgnored deltas :=
        mem_filterMap.2 ⟨record, hrecord, by rw [hscope]; rfl⟩
      by_cases hskip : shouldSkip skipPaths delta = true
      · exact .inr (mem_filter.2 ⟨hmem, hskip⟩)
      · left
        have htaken : delta ∈ (keptOf isIgnored deltas).filter
            fun d => !shouldSkip skipPaths d := mem_filter.2 ⟨hmem, by simpa using hskip⟩
        rw [Applying.mem_pending]
        cases delta with
        | renamed p q x m n => exact .inl (mem_filter.2 ⟨htaken, rfl⟩)
        | deleted p x => exact .inr (.inr (.inl (mem_filter.2 ⟨htaken, rfl⟩)))
        | modified p x m n => exact .inr (.inr (.inr (.inl
            (mem_append_left _ (mem_filter.2 ⟨htaken, rfl⟩)))))
        | added p x m n => exact .inr (.inr (.inr (.inl
            (mem_append_right _ (mem_filter.2 ⟨htaken, rfl⟩)))))
    | ignoredDelete path =>
      left
      intro pair hpair
      rw [assignments, hscope, mem_singleton] at hpair
      have hnone := h path (mem_filterMap.2 ⟨record, hrecord, by rw [hscope]; rfl⟩)
      rw [hpair, hashes, hnone]
      rfl
    | ignoredUpsert untracked =>
      left
      intro pair hpair
      rw [assignments, hscope, mem_map] at hpair
      obtain ⟨path, hpath, rfl⟩ := hpair
      have hnone := h path (mem_filterMap.2
        ⟨record, hrecord, by rw [hscope]; exact Option.mem_toList.1 hpath⟩)
      rw [hashes, hnone]
      rfl
  · intro hzero record hrecord
    have hall := countP_eq_zero.1 hzero record hrecord
    simpa [omitted] using hall

theorem SysOk.admitPage (h : SysOk st s) (hp : s.pull = some pull)
    (hstage : pull.stage = .paged deltas nextCursor) (skipPaths : String → Bool) :
    SysOk st (s.admitPage st pull deltas nextCursor skipPaths) := by
  have hok := h.pull pull hp
  obtain ⟨toRoot, hto⟩ := hok.toRoot_of_stage (by rw [hstage]; nofun)
  obtain ⟨htrack, before, rest, hrecords, hdone, hkept, hplace⟩ := hok.known toRoot hto
  rw [hstage] at hplace
  obtain ⟨left, rfl, hprogress, hcursor⟩ := hplace
  rw [System.admitPage]
  apply h.calling (Q := fun state => Track st s.starts pull.vaultId pull.fromRoot toRoot state ∧
    (pull.deferredCount = 0 → ∀ delta ∈ before, Done st.isIgnored state.entries delta))
  · exact ⟨htrack, hdone⟩
  · intro call hcall _ state hcheck hq
    obtain ⟨path, hpath, rfl⟩ := mem_map.1 hcall
    obtain ⟨record, hrecord, huntracked⟩ := mem_filterMap.1 hpath
    have hpair : (path, none) ∈ (st.diff pull.vaultId pull.fromRoot toRoot).records.flatMap
        (assignments st.isIgnored) := by
      refine mem_flatMap.2 ⟨record, ?_, untracked_mem huntracked⟩
      rw [hrecords]
      exact mem_append_right _ (mem_append_left _ hrecord)
    refine ⟨hcheck.assign hq.1 rfl hpair, hq.1.assign rfl hpair, fun hzero delta hdelta => ?_⟩
    exact (hq.2 hzero delta hdelta).assign (hrecords ▸ mem_append_left _ hdelta) rfl hpair
  · intro w hw hq hcalls hvis
    apply SysOk.goOn hw
    refine ⟨fun hnone => ?_, fun target htarget => ?_, fun ha => ?_, ?_⟩
    · cases hto.symm.trans hnone
    · obtain rfl := Option.some.inj (hto.symm.trans htarget)
      refine ⟨hq.1, before, deltas ++ left, hrecords, hq.2, hkept, deltas, left, rfl, hprogress,
        hcursor, workOk_init skipPaths nextCursor fun path hpath => ?_⟩
      rw [hvis]
      exact foldl_removeEntry _ (.inl hpath)
    · obtain ⟨hzero, homitted⟩ := hok.allowed ha
      rw [hstage] at homitted
      refine ⟨hzero, ?_⟩
      change pull.remoteOmissionCount + _ = _
      rw [homitted]
      exact Nat.zero_add _
    · intro _ item hitem
      rw [hcalls] at hitem
      apply (hok.quiet.extend _) (.inr (by rw [hstage]; rfl)) item hitem
      intro x hx
      obtain ⟨call, hcall, rfl⟩ := mem_map.1 hx
      obtain ⟨path, -, rfl⟩ := mem_map.1 hcall
      rfl

theorem pullOk_closing (h : PullOk st starts state calls pull) (hstage : pull.stage = .rooting)
    (he : target.entries = state.entries)
    (hc : target.data.diffPageCheckpoint = state.data.diffPageCheckpoint ∨
      target.data.diffPageCheckpoint = none) (hitems : ∀ item ∈ items, isCursor item = false) :
    PullOk st starts target (calls ++ items) { pull with stage := .closing } := by
  refine ⟨fun hnone => ?_, fun toRoot hto => ?_, fun ha => ?_, ?_⟩
  · have hfetching := (h.fresh hnone).2.2
    rw [hstage] at hfetching
    cases hfetching
  · have hknown := (h.known toRoot hto).of_eq he hc
    obtain ⟨before, rest, hrecords, hdone, hkept, hplace⟩ := hknown.place
    rw [hstage] at hplace
    exact ⟨hknown.track, before, rest, hrecords, hdone, hkept, hplace⟩
  · obtain ⟨hzero, homitted⟩ := h.allowed ha
    rw [hstage] at homitted
    exact ⟨hzero, homitted⟩
  · intro hstalled
    apply (h.quiet.extend hitems)
    rcases hstalled with hfalse | hpage
    · exact .inl hfalse
    · cases hpage

theorem SysOk.close (h : SysOk st s) (hp : s.pull = some pull) (hstage : pull.stage = .rooting)
    (timestamp : Nat) : SysOk st (s.close st pull timestamp) := by
  have hcalls : ∀ call : Setter,
      call = .setLastSyncTimestamp timestamp ∨ call = .clearDiffPageCheckpoint → ∀ state, Checked st s.starts state → state.entries = s.world.base.visible.entries →
      Checked st s.starts (call.apply st.env state) ∧
        (call.apply st.env state).entries = s.world.base.visible.entries := by
    intro call hcall state hcheck he
    rcases hcall with rfl | rfl
    · exact ⟨hcheck.of_eq rfl rfl, he⟩
    · exact ⟨Checked.of_none checkpoint_cleared, he⟩
  unfold System.close
  dsimp only
  split_ifs
  · apply h.calling (Q := fun state => state.entries = s.world.base.visible.entries) rfl
    · intro call hcall _ state hcheck he
      apply hcalls call _ state hcheck he
      simpa using hcall
    · intro w hw he hitems hvis
      apply (@SysOk.awaits _ _ _ { pull with stage := .closing }) hw _ (.inr rfl)
      rw [hitems]
      apply pullOk_closing (h.pull pull hp) hstage he
      · rw [hvis]
        exact .inr rfl
      · simp [isCursor]
  · apply h.calling (Q := fun state => state.entries = s.world.base.visible.entries) rfl
    · intro call hcall _ state hcheck he
      exact hcalls call (.inl (mem_singleton.1 hcall)) state hcheck he
    · intro w hw he hitems hvis
      apply SysOk.awaits hw _ (.inl rfl)
      rw [hitems]
      apply pullOk_closing (h.pull pull hp) hstage he
      · rw [hvis]
        exact .inl rfl
      · simp [isCursor]

theorem SysOk.advance (h : SysOk st s) (hp : s.pull = some pull) (event : Event) :
    SysOk st (s.advance st pull event) := by
  unfold System.advance
  split
  · next target count hstage => exact h.page hp hstage target count
  · split_ifs
    · apply h.calling (Q := fun _ => True) trivial
      · intro call hcall _ state _ _
        rw [mem_singleton.1 hcall]
        exact ⟨Checked.of_none checkpoint_cleared, trivial⟩
      · intro w hw _ _ _
        exact SysOk.idle (hw.enqueue (.inl rfl))
    · exact SysOk.idle h.sound
  · next skipPaths hstage => exact h.admitPage hp hstage skipPaths
  · next hstage => exact h.apply hp hstage _
  · next timestamp hstage => exact h.close hp hstage timestamp
  · exact SysOk.idle h.sound
  · exact h

theorem SysOk.queueTurn (h : SysOk st s) (hw : Single st.env w) (horigin : w.origin = s.world.origin)
    (hcalls : w.calls = s.world.calls) : SysOk st { s with world := w } := by
  have hvisible : w.base.visible = s.world.base.visible := by
    rw [hw.visible_eq, h.sound.single.visible_eq, horigin, hcalls]
  refine ⟨⟨hw, ?_⟩, fun pull hp => ?_⟩
  · rw [horigin, hcalls]
    exact h.sound.checked
  · dsimp only
    rw [hvisible, hcalls]
    exact h.pull pull hp

theorem SysOk.step (h : SysOk st s) (event : Event) : SysOk st (s.step st event) := by
  cases event with
  | start => exact h.queueTurn h.sound.single.start rfl rfl
  | resume outcome =>
    obtain ⟨hsingle, hstep⟩ := h.sound.single.resume outcome
    exact h.queueTurn hsingle (by rw [hstep]) (by rw [hstep])
  | crash walSegments =>
    unfold System.step
    dsimp only
    split
    · exact h
    · next state hload => exact SysOk.idle (h.sound.crash hload walSegments)
  | throws => exact SysOk.idle h.sound
  | begin vaultId localRootHash supported =>
    rw [System.step]
    split_ifs with hidle
    · exact h
    · exact h.begin vaultId localRootHash supported (by simpa using hidle)
  | settled =>
    unfold System.step
    dsimp only
    split
    · exact h
    · next pull hp =>
      split_ifs
      · exact SysOk.goOn h.sound ((h.pull pull hp).await none)
      · exact h
  | _ =>
    unfold System.step
    dsimp only
    split
    · exact h
    · next pull hp =>
      split_ifs
      · exact h
      · exact h.advance hp _

theorem Reachable.sysOk (h : Reachable st s) : SysOk st s := by
  induction h with
  | loaded disk state walSegments hload hfresh =>
    refine SysOk.idle ⟨Single.loaded hload walSegments, fun k => ?_⟩
    rw [World.loaded, take_nil]
    exact Checked.of_none hfresh
  | step s event _ ih => exact ih.step event

theorem Recovered.finish_eq (h : Recovered st starts state checkpoint fromRoot toRoot before rest) :
    ∃ entries, ⟨checkpoint.vaultId, fromRoot, toRoot, entries⟩ ∈ starts ∧
      finish st.isIgnored (hashes state.entries) rest =
        finish st.isIgnored (hashes entries) (before ++ rest) := by
  obtain ⟨entries, hmem, hsame⟩ := h.started
  rw [h.records_eq] at hsame
  refine ⟨entries, hmem, ?_⟩
  have hnodup := keys_nodup st.isIgnored (st.diff checkpoint.vaultId fromRoot toRoot)
  rw [h.records_eq] at hnodup
  rw [finish, finish, flatMap_append] at *
  apply assign_append_eq hnodup
  · intro pair hpair
    obtain ⟨delta, hdelta, hpair⟩ := mem_flatMap.1 hpair
    exact h.done delta hdelta pair hpair
  · intro path hpath
    rw [hashes, hashes, hsame path hpath]

theorem Known.finish_eq (h : Known st starts state pull toRoot)
    (hstage : pull.stage = .rooting ∨ pull.stage = .closing) (hzero : pull.deferredCount = 0) :
    ∃ entries, ⟨pull.vaultId, pull.fromRoot, toRoot, entries⟩ ∈ starts ∧
      hashes state.entries = finish st.isIgnored (hashes entries)
        (st.diff pull.vaultId pull.fromRoot toRoot).records := by
  obtain ⟨htrack, before, rest, hrecords, hdone, -, hplace⟩ := h
  obtain rfl : rest = [] := by
    rcases hstage with hstage | hstage
    · rw [hstage] at hplace
      exact hplace
    · rw [hstage] at hplace
      exact hplace
  rw [append_nil] at hrecords
  obtain ⟨entries, hmem, hsame⟩ := htrack.started
  have hnodup := keys_nodup st.isIgnored (st.diff pull.vaultId pull.fromRoot toRoot)
  refine ⟨entries, hmem, ?_⟩
  have happend := (@assign_append_eq _ _ _ (hashes state.entries) (hashes entries)) (by rw [append_nil]; exact hnodup) ?_ ?_
  · rw [append_nil] at happend
    exact happend
  · intro pair hpair
    obtain ⟨delta, hdelta, hpair⟩ := mem_flatMap.1 hpair
    exact hdone hzero delta (hrecords ▸ hdelta) pair hpair
  · intro path hpath
    rw [append_nil] at hpath
    rw [hashes, hashes, hsame path hpath]

end

def noteRoot (b : UInt8) : FileHash := ⟨List.replicate 32 b, length_repeated b⟩

def noteDiff : Diff where
  records := [.added "a" (noteRoot 7) 1 1]
  sorted := List.pairwise_singleton _ _
  valid := by decide +kernel
  separate := by decide

def noteSetting : Setting := ⟨sampleEnv, fun _ => false, fun _ _ _ => noteDiff⟩

def noteSystem : System := ⟨sampleWorld, none, []⟩

def notePulled : System :=
  [Event.begin "v" (some (noteRoot 1)) true, .page (noteRoot 2) 0, .admitPage fun _ => false,
    .content 0 (.written 1 1 (some 1)), .pageDone true, .start, .resume (.done 1)].foldl
      (System.step noteSetting) noteSystem

end Obsetync.Pull
