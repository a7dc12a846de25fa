import Obsetync.Pull.Runs

namespace Obsetync.Pull
open SyncBase DiffPage List

section
variable {st : Setting} {starts starts' : List Start} {state state' : BaseState} {s : System}
  {w : World} {pull pull' : Paged} {calls : List Item} {toRoot : FileHash}

theorem Quiet.extend (h : Quiet calls pull) (hitems : ∀ item ∈ items, isCursor item = false) :
    Quiet (calls ++ items) pull := by
  intro hstalled x hx
  rw [drop_append, mem_append] at hx
  rcases hx with hx | hx
  · exact h hstalled x hx
  · exact hitems x (mem_of_mem_drop hx)

theorem not_cursor_of_assignment (h : assignmentOf call = some pair) :
    isCursor (.setter call) = false := by
  cases call <;> first | rfl | cases h

theorem StageOk.of_entries (h : StageOk isIgnored fromRoot toRoot entries before rest cursor stage)
    (he : entries' = entries) :
    StageOk isIgnored fromRoot toRoot entries' before rest cursor stage := he ▸ h

theorem Known.of_eq (h : Known st starts state pull toRoot) (he : state'.entries = state.entries)
    (hc : state'.data.diffPageCheckpoint = state.data.diffPageCheckpoint ∨
      state'.data.diffPageCheckpoint = none) : Known st starts state' pull toRoot := by
  obtain ⟨before, rest, hrecords, hdone, hkept, hstage⟩ := h.place
  refine ⟨⟨fun checkpoint hcheck => ?_, h.track.started.of_entries he⟩, before, rest, hrecords,
    he ▸ hdone, hkept, hstage.of_entries he⟩
  rcases hc with hsame | hnone
  · exact h.track.key checkpoint (hsame ▸ hcheck)
  · rw [hnone] at hcheck
    cases hcheck

theorem PullOk.toRoot_of_stage (h : PullOk st starts state calls pull)
    (hstage : pull.stage ≠ .fetching) : ∃ toRoot, pull.toRoot = some toRoot := by
  cases hto : pull.toRoot with
  | none => exact absurd (h.fresh hto).2.2 hstage
  | some toRoot => exact ⟨toRoot, rfl⟩

structure AtWork (st : Setting) (starts : List Start) (pull : Paged) (toRoot : FileHash)
    (before taken left : List FileDelta) (work : Applying) (state : BaseState) : Prop where
  track : Track st starts pull.vaultId pull.fromRoot toRoot state
  records_eq : (st.diff pull.vaultId pull.fromRoot toRoot).records = before ++ (taken ++ left)
  done : pull.deferredCount = 0 → ∀ delta ∈ before, Done st.isIgnored state.entries delta
  kept : pull.durableCursorAllowed = true → ∀ delta ∈ before, omitted st.isIgnored delta = false
  progress : taken = [] → left = []
  cursor_eq : work.nextCursor = cursorAfter pull.fromRoot toRoot [] taken left
  ok : WorkOk st.isIgnored taken state.entries work

variable {before taken left : List FileDelta} {work work' : Applying} {delta : FileDelta}

theorem PullOk.atWork (h : PullOk st starts state calls pull) (hstage : pull.stage = .applying work) :
    ∃ toRoot before taken left, pull.toRoot = some toRoot ∧
      AtWork st starts pull toRoot before taken left work state := by
  obtain ⟨toRoot, hto⟩ := h.toRoot_of_stage (by rw [hstage]; nofun)
  obtain ⟨htrack, before, rest, hrecords, hdone, hkept, hplace⟩ := h.known toRoot hto
  rw [hstage] at hplace
  obtain ⟨taken, left, rfl, hprogress, hcursor, hok⟩ := hplace
  exact ⟨toRoot, before, taken, left, hto, htrack, hrecords, hdone, hkept, hprogress, hcursor, hok⟩

theorem AtWork.taken_subset (h : AtWork st starts pull toRoot before taken left work state) :
    taken ⊆ (st.diff pull.vaultId pull.fromRoot toRoot).records := by
  intro delta hdelta
  rw [h.records_eq]
  exact mem_append_right _ (mem_append_left _ hdelta)

theorem AtWork.mem_assignments (h : AtWork st starts pull toRoot before taken left work state)
    (hdelta : delta ∈ work.pending) (hpair : pair ∈ keptAssignments delta) :
    pair ∈ (st.diff pull.vaultId pull.fromRoot toRoot).records.flatMap
      (assignments st.isIgnored) := by
  obtain ⟨record, hrecord, hscope⟩ := h.ok.source delta hdelta
  exact mem_flatMap.2 ⟨record, h.taken_subset hrecord, mem_assignments_of_kept hscope hpair⟩

theorem AtWork.assign (h : AtWork st starts pull toRoot before taken left work state)
    (hcall : assignmentOf call = some pair)
    (hpair : pair ∈ (st.diff pull.vaultId pull.fromRoot toRoot).records.flatMap
      (assignments st.isIgnored)) :
    AtWork st starts pull toRoot before taken left work (call.apply st.env state) := by
  refine { h with
    track := h.track.assign hcall hpair
    done := fun hzero delta hdelta => ?_
    ok := h.ok.assign h.taken_subset hcall hpair }
  have hmem : delta ∈ (st.diff pull.vaultId pull.fromRoot toRoot).records :=
    h.records_eq ▸ mem_append_left _ hdelta
  exact (h.done hzero delta hdelta).assign hmem hcall hpair

theorem AtWork.call (hdelta : delta ∈ work.pending) {call : Setter}
    (hcall : assignmentOf call = some pair) (hpair : pair ∈ keptAssignments delta)
    (hcheck : Checked st starts state)
    (h : AtWork st starts pull toRoot before taken left work state) :
    Checked st starts (call.apply st.env state) ∧
      AtWork st starts pull toRoot before taken left work (call.apply st.env state) :=
  ⟨hcheck.assign h.track hcall (h.mem_assignments hdelta hpair),
    h.assign hcall (h.mem_assignments hdelta hpair)⟩

theorem AtWork.pullOk (h : AtWork st starts pull toRoot before taken left work state')
    (hp : PullOk st starts state calls pull) (hstage : pull.stage = .applying work)
    (hto : pull.toRoot = some toRoot) (hok : WorkOk st.isIgnored taken state'.entries work')
    (hcursor : work'.nextCursor = work.nextCursor)
    (hupserts : work'.ignoredUpserts = work.ignoredUpserts) {items : List Item}
    (hitems : ∀ item ∈ items, isCursor item = false) :
    PullOk st starts state' (calls ++ items) { pull with stage := .applying work' } := by
  refine ⟨fun hnone => ?_, fun target htarget => ?_, fun hallowed => ?_, ?_⟩
  · rw [hto] at hnone
    cases hnone
  · obtain rfl := Option.some.inj (hto.symm.trans htarget)
    exact ⟨h.track, before, taken ++ left, h.records_eq, h.done, h.kept, taken, left, rfl, h.progress,
      hcursor.trans h.cursor_eq, hok⟩
  · obtain ⟨hzero, homitted⟩ := hp.allowed hallowed
    rw [hstage] at homitted
    exact ⟨hzero, homitted.trans hupserts.symm⟩
  · intro _ x hx
    apply (hp.quiet.extend hitems) (.inr _) x hx
    rw [hstage]
    rfl

theorem pending_of_renames (h : d ∈ work.renames) : d ∈ work.pending :=
  Applying.mem_pending.2 (.inl h)

theorem pending_of_moved (h : d ∈ work.moved) : d ∈ work.pending :=
  Applying.mem_pending.2 (.inr (.inl h))

theorem pending_of_deletions (h : d ∈ work.deletions) : d ∈ work.pending :=
  Applying.mem_pending.2 (.inr (.inr (.inl h)))

theorem pending_of_content (h : d ∈ work.content ∨ d ∈ work.failed) : d ∈ work.pending :=
  Applying.mem_pending.2 (.inr (.inr (.inr h)))

theorem oldPath_mem (h : delta.action = 4) : (delta.oldPath, none) ∈ keptAssignments delta := by
  cases delta with
  | renamed path oldPath hash size mtimeMs => exact mem_cons_of_mem _ mem_cons_self
  | _ => cases h

theorem path_mem (h : delta.action = 3) : (delta.path, none) ∈ keptAssignments delta := by
  cases delta with
  | deleted path hash => exact mem_cons_self
  | _ => cases h

theorem settled_deletion (h : delta.action = 3) (hnone : hashes entries delta.path = none) :
    Settled entries delta := by
  cases delta with
  | deleted path hash =>
    intro pair hpair
    rw [mem_singleton.1 hpair]
    exact hnone
  | _ => cases h

theorem setContent_eq (h : delta.action ≠ 3) (mtime : Int) (size : Nat) :
    ∃ call hash, setContent delta mtime size = [call] ∧
      assignmentOf call = some (delta.path, some hash) ∧
      (delta.path, some hash) ∈ keptAssignments delta ∧
      ∀ pair ∈ keptAssignments delta, pair = (delta.path, some hash) ∨
        delta.action = 4 ∧ pair = (delta.oldPath, none) := by
  cases delta with
  | added path hash size' mtimeMs =>
    exact ⟨_, hexEncode hash.val, rfl, rfl, mem_cons_self,
      fun pair hpair => .inl (mem_singleton.1 hpair)⟩
  | modified path hash size' mtimeMs =>
    exact ⟨_, hexEncode hash.val, rfl, rfl, mem_cons_self,
      fun pair hpair => .inl (mem_singleton.1 hpair)⟩
  | deleted path hash => exact absurd rfl h
  | renamed path oldPath hash size' mtimeMs =>
    refine ⟨_, hexEncode hash.val, rfl, rfl, mem_cons_self, fun pair hpair => ?_⟩
    rcases mem_cons.1 hpair with rfl | hpair
    · exact .inl rfl
    · exact .inr ⟨rfl, mem_singleton.1 hpair⟩

theorem apply_deferRename (h : SysOk st s) (hp : s.pull = some pull)
    (hstage : pull.stage = .applying work) : SysOk st (s.apply st pull work .deferRename) := by
  unfold System.apply
  dsimp only
  split
  · next delta renames hmoved hrenames =>
    obtain ⟨toRoot, before, taken, left, hto, hwork⟩ := (h.pull pull hp).atWork hstage
    apply SysOk.goOn h.sound
    have hok := @AtWork.pullOk _ _ _ _ _ _ _ _ _ _ _ { work with
      renames := renames, deferred := work.deferred ++ [delta] } hwork (h.pull pull hp) hstage hto ?_ rfl rfl [] nofun
    · rw [append_nil] at hok
      exact hok
    · apply hwork.ok.advance
      · exact fun d hd => hrenames ▸ mem_cons_of_mem _ hd
      · exact fun d hd => ⟨.inr hd, hwork.ok.half d hd⟩
      · exact fun d hd => hd
      · exact fun d hd => hd
      · rfl
      · intro d hd
        simp only [Applying.mem_pending, mem_append, hrenames, mem_cons] at hd ⊢
        tauto
  · exact h

theorem apply_moveOut (h : SysOk st s) (hp : s.pull = some pull)
    (hstage : pull.stage = .applying work) : SysOk st (s.apply st pull work .moveOut) := by
  unfold System.apply
  dsimp only
  split
  · next delta renames hmoved hrenames =>
    obtain ⟨toRoot, before, taken, left, hto, hwork⟩ := (h.pull pull hp).atWork hstage
    have hmem : delta ∈ work.renames := hrenames ▸ mem_cons_self
    have haction := hwork.ok.renames delta (.inl hmem)
    have hassign : assignmentOf (.removeEntry delta.oldPath) = some (delta.oldPath, none) := rfl
    apply h.calling hwork
    · intro call hcall _ state hcheck hstate
      rw [mem_singleton.1 hcall]
      exact AtWork.call (pending_of_renames hmem) hassign (oldPath_mem haction) hcheck hstate
    · intro w hw hstate hcalls hvis
      apply SysOk.goOn hw
      rw [hcalls]
      refine hstate.pullOk (h.pull pull hp) hstage hto ?_ (by rfl) (by rfl) ?_
      rotate_left
      · intro item hitem
        rw [mem_singleton.1 hitem]
        rfl
      · apply hstate.ok.advance
        · exact fun d hd => hrenames ▸ mem_cons_of_mem _ hd
        · intro d hd
          obtain rfl := Option.some.inj hd
          rw [hvis]
          exact ⟨.inl hmem, ((@apply_entries st.env) hassign).1⟩
        · exact fun d hd => hd
        · exact fun d hd => hd
        · rfl
        · intro d hd
          simp only [Applying.mem_pending, hrenames, hmoved, mem_cons, Option.mem_def,
            Option.some.injEq, reduceCtorEq, false_or] at hd ⊢
          tauto
  · exact h

theorem apply_moveIn (h : SysOk st s) (hp : s.pull = some pull)
    (hstage : pull.stage = .applying work) (mtime : Int) (size : Nat) :
    SysOk st (s.apply st pull work (.moveIn mtime size)) := by
  unfold System.apply
  dsimp only
  split
  · next delta hmoved =>
    obtain ⟨toRoot, before, taken, left, hto, hwork⟩ := (h.pull pull hp).atWork hstage
    have hmem : delta ∈ work.moved := hmoved
    have haction := hwork.ok.renames delta (.inr hmem)
    obtain ⟨call, hash, hcontent, hassign, hpair, hpairs⟩ := setContent_eq
      (by rw [haction]; decide) mtime size
    rw [hcontent]
    apply h.calling hwork
    · intro c hcall _ state hcheck hstate
      rw [mem_singleton.1 hcall]
      exact AtWork.call (pending_of_moved hmem) hassign hpair hcheck hstate
    · intro w hw hstate hcalls hvis
      apply SysOk.awaits hw _ (.inl rfl)
      rw [hcalls]
      refine hstate.pullOk (h.pull pull hp) hstage hto ?_ (by rfl) (by rfl) ?_
      rotate_left
      · intro item hitem
        rw [mem_singleton.1 hitem]
        exact not_cursor_of_assignment hassign
      · have hsettled : Settled w.base.visible.entries delta := by
          intro pair hmemp
          rcases hpairs pair hmemp with rfl | ⟨-, rfl⟩
          · rw [hvis]
            exact (apply_entries hassign).1
          · exact hstate.ok.half delta hmem
        apply hstate.ok.advance
        · exact fun d hd => hd
        · nofun
        · exact fun d hd => hd
        · exact fun d hd => hd
        · rfl
        · intro d hd
          rw [Applying.mem_pending] at hd ⊢
          rcases hd with (hd | hd | hd) | hd
          · exact .inl (.inl hd)
          · obtain rfl := Option.some.inj (hmoved.symm.trans hd)
            exact .inr (.inr hsettled)
          · exact .inl (.inr (.inr hd))
          · exact .inr (.inl hd)
  · exact h

theorem SysOk.afterDelete (hw : Sound st s.starts w)
    (hp : PullOk st s.starts w.base.visible w.calls { pull with stage := .applying work }) :
    SysOk st (s.afterDelete w pull work) := by
  rw [System.afterDelete]
  split_ifs
  · exact SysOk.awaits hw hp (.inl rfl) _
  · exact SysOk.goOn hw hp

theorem apply_deferDelete (h : SysOk st s) (hp : s.pull = some pull)
    (hstage : pull.stage = .applying work) : SysOk st (s.apply st pull work .deferDelete) := by
  unfold System.apply
  dsimp only
  split
  · next delta deletions hrenames hmoved hdeletions =>
    obtain ⟨toRoot, before, taken, left, hto, hwork⟩ := (h.pull pull hp).atWork hstage
    apply SysOk.afterDelete h.sound
    have hok := @AtWork.pullOk _ _ _ _ _ _ _ _ _ _ _ { work with
      deletions := deletions, deferred := work.deferred ++ [delta] } hwork (h.pull pull hp) hstage hto ?_ rfl rfl [] nofun
    · rw [append_nil] at hok
      exact hok
    · apply hwork.ok.advance
      · exact fun d hd => hd
      · exact fun d hd => ⟨.inr hd, hwork.ok.half d hd⟩
      · exact fun d hd => hdeletions ▸ mem_cons_of_mem _ hd
      · exact fun d hd => hd
      · rfl
      · intro d hd
        simp only [Applying.mem_pending, mem_append, hdeletions, mem_cons] at hd ⊢
        tauto
  · exact h

theorem apply_delete (h : SysOk st s) (hp : s.pull = some pull)
    (hstage : pull.stage = .applying work) : SysOk st (s.apply st pull work .delete) := by
  unfold System.apply
  dsimp only
  split
  · next delta deletions hrenames hmoved hdeletions =>
    obtain ⟨toRoot, before, taken, left, hto, hwork⟩ := (h.pull pull hp).atWork hstage
    have hmem : delta ∈ work.deletions := hdeletions ▸ mem_cons_self
    have haction := hwork.ok.deletions delta hmem
    have hassign : assignmentOf (.removeEntry delta.path) = some (delta.path, none) := rfl
    apply h.calling hwork
    · intro call hcall _ state hcheck hstate
      rw [mem_singleton.1 hcall]
      exact AtWork.call (pending_of_deletions hmem) hassign (path_mem haction) hcheck hstate
    · intro w hw hstate hcalls hvis
      apply SysOk.afterDelete hw
      rw [hcalls]
      refine hstate.pullOk (h.pull pull hp) hstage hto ?_ (by rfl) (by rfl) ?_
      rotate_left
      · intro item hitem
        rw [mem_singleton.1 hitem]
        rfl
      · have hsettled : Settled w.base.visible.entries delta := by
          apply settled_deletion haction
          rw [hvis]
          exact ((@apply_entries st.env) hassign).1
        apply hstate.ok.advance
        · exact fun d hd => hd
        · exact fun d hd => ⟨.inr hd, hstate.ok.half d hd⟩
        · exact fun d hd => hdeletions ▸ mem_cons_of_mem _ hd
        · exact fun d hd => hd
        · rfl
        · intro d hd
          by_cases hsame : d = delta
          · exact .inr (.inr (hsame ▸ hsettled))
          · simp only [Applying.mem_pending, hdeletions, mem_cons, hsame, false_or] at hd ⊢
            tauto
  · exact h

end

end Obsetync.Pull
