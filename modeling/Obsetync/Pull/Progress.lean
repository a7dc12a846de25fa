import Obsetync.Pull.Meaning

namespace Obsetync.Pull
open SyncBase DiffPage List

/-- Off the paths that a diff assigns, the entries are those of a start of this diff. -/
def Started (st : Setting) (starts : List Start) (vaultId : String) (fromRoot toRoot : FileHash)
    (state : BaseState) : Prop :=
  ∃ entries, ⟨vaultId, fromRoot, toRoot, entries⟩ ∈ starts ∧
    ∀ path ∉ ((st.diff vaultId fromRoot toRoot).records.flatMap (assignments st.isIgnored)).map
      Prod.fst, state.entries path = entries path

/-- A checkpoint whose cursor follows the records of `before`, in a state that shows them. -/
structure Recovered (st : Setting) (starts : List Start) (state : BaseState)
    (checkpoint : DiffPageCheckpoint) (fromRoot toRoot : FileHash) (before rest : List FileDelta) :
    Prop where
  from_eq : checkpoint.fromRoot = hexEncode fromRoot.val
  to_eq : checkpoint.toRoot = hexEncode toRoot.val
  records_eq : (st.diff checkpoint.vaultId fromRoot toRoot).records = before ++ rest
  cursor_eq : checkpoint.nextCursorHex = diffCursorToHex (cursorAfter fromRoot toRoot [] before rest)
  complete_eq : checkpoint.complete = rest.isEmpty
  progress : before = [] → rest = []
  done : ∀ delta ∈ before, Done st.isIgnored state.entries delta
  kept : ∀ delta ∈ before, omitted st.isIgnored delta = false
  started : Started st starts checkpoint.vaultId fromRoot toRoot state

def Checked (st : Setting) (starts : List Start) (state : BaseState) : Prop :=
  ∀ checkpoint, state.data.diffPageCheckpoint = some checkpoint → isDiffPageCheckpoint checkpoint ∧
      ∃ fromRoot toRoot before rest, Recovered st starts state checkpoint fromRoot toRoot before rest

/-- The state while a diff is pulled: a checkpoint in it is one of this diff. -/
structure Track (st : Setting) (starts : List Start) (vaultId : String) (fromRoot toRoot : FileHash)
    (state : BaseState) : Prop where
  key : ∀ checkpoint, state.data.diffPageCheckpoint = some checkpoint →
    checkpoint.vaultId = vaultId ∧ checkpoint.fromRoot = hexEncode fromRoot.val ∧
      checkpoint.toRoot = hexEncode toRoot.val
  started : Started st starts vaultId fromRoot toRoot state

section
variable {st : Setting} {starts starts' : List Start} {state state' : BaseState} {vaultId : String}
  {fromRoot toRoot : FileHash} {call : Setter} {pair : String × Option String}

theorem Started.of_entries (h : Started st starts vaultId fromRoot toRoot state)
    (he : state'.entries = state.entries) : Started st starts vaultId fromRoot toRoot state' := by
  obtain ⟨entries, hmem, hsame⟩ := h
  exact ⟨entries, hmem, he ▸ hsame⟩

theorem Started.mono (h : Started st starts vaultId fromRoot toRoot state)
    (hs : starts ⊆ starts') : Started st starts' vaultId fromRoot toRoot state := by
  obtain ⟨entries, hmem, hsame⟩ := h
  exact ⟨entries, hs hmem, hsame⟩

theorem Checked.mono (h : Checked st starts state) (hs : starts ⊆ starts') :
    Checked st starts' state := by
  intro checkpoint hc
  obtain ⟨hvalid, fromRoot, toRoot, before, rest, hr⟩ := h checkpoint hc
  exact ⟨hvalid, fromRoot, toRoot, before, rest, { hr with started := hr.started.mono hs }⟩

theorem Checked.of_none (h : state.data.diffPageCheckpoint = none) : Checked st starts state := by
  intro checkpoint hc
  rw [h] at hc
  cases hc

theorem Checked.of_eq (h : Checked st starts state) (he : state'.entries = state.entries)
    (hc : state'.data.diffPageCheckpoint = state.data.diffPageCheckpoint) :
    Checked st starts state' := by
  intro checkpoint hcheck
  obtain ⟨hvalid, fromRoot, toRoot, before, rest, hr⟩ := h checkpoint (hc ▸ hcheck)
  exact ⟨hvalid, fromRoot, toRoot, before, rest,
    { hr with done := he ▸ hr.done, started := hr.started.of_entries he }⟩

theorem Started.assign (h : Started st starts vaultId fromRoot toRoot state)
    (hcall : assignmentOf call = some pair)
    (hpair : pair ∈ (st.diff vaultId fromRoot toRoot).records.flatMap (assignments st.isIgnored)) :
    Started st starts vaultId fromRoot toRoot (call.apply st.env state) := by
  obtain ⟨entries, hmem, hsame⟩ := h
  refine ⟨entries, hmem, fun path hpath => ?_⟩
  have hne : path ≠ pair.1 := fun h => hpath (h ▸ mem_map_of_mem hpair)
  rw [(apply_entries hcall).2.1 path hne]
  exact hsame path hpath

theorem Track.assign (h : Track st starts vaultId fromRoot toRoot state)
    (hcall : assignmentOf call = some pair)
    (hpair : pair ∈ (st.diff vaultId fromRoot toRoot).records.flatMap (assignments st.isIgnored)) :
    Track st starts vaultId fromRoot toRoot (call.apply st.env state) := by
  refine ⟨?_, h.started.assign hcall hpair⟩
  rw [(apply_entries hcall).2.2]
  exact h.key

theorem Checked.assign (h : Checked st starts state)
    (ht : Track st starts vaultId fromRoot toRoot state) (hcall : assignmentOf call = some pair)
    (hpair : pair ∈ (st.diff vaultId fromRoot toRoot).records.flatMap (assignments st.isIgnored)) :
    Checked st starts (call.apply st.env state) := by
  intro checkpoint hcheck
  rw [(apply_entries hcall).2.2] at hcheck
  obtain ⟨hvalid, fromRoot', toRoot', before, rest, hr⟩ := h checkpoint hcheck
  obtain ⟨rfl, hfrom, hto⟩ := ht.key checkpoint hcheck
  obtain rfl := hexEncode_root_inj (hr.from_eq.symm.trans hfrom)
  obtain rfl := hexEncode_root_inj (hr.to_eq.symm.trans hto)
  refine ⟨hvalid, fromRoot', toRoot', before, rest, { hr with
    done := fun delta hdelta => ?_, started := hr.started.assign hcall hpair }⟩
  exact (hr.done delta hdelta).assign (hr.records_eq ▸ mem_append_left _ hdelta) hcall hpair

end

def Applying.pending (work : Applying) : List FileDelta :=
  work.renames ++ work.moved.toList ++ work.deletions ++ work.content ++ work.failed

theorem Applying.mem_pending {work : Applying} :
    delta ∈ work.pending ↔ delta ∈ work.renames ∨ delta ∈ work.moved ∨ delta ∈ work.deletions ∨
      delta ∈ work.content ∨ delta ∈ work.failed := by
  simp only [Applying.pending, mem_append, Option.mem_toList, or_assoc]
  rfl

/-- A page on its way: every record of it is shown, or is not settled, or was put off. -/
structure WorkOk (isIgnored : String → Bool) (taken : List FileDelta)
    (entries : String → Option BaseEntry) (work : Applying) : Prop where
  source : ∀ delta ∈ work.pending, ∃ record ∈ taken, scope isIgnored record = .kept delta
  renames : ∀ delta, delta ∈ work.renames ∨ delta ∈ work.moved → delta.action = 4
  half : ∀ delta ∈ work.moved, hashes entries delta.oldPath = none
  deletions : ∀ delta ∈ work.deletions, delta.action = 3
  content : ∀ delta, delta ∈ work.content ∨ delta ∈ work.failed → delta.action = 1 ∨ delta.action = 2
  covered : ∀ record ∈ taken, Done isIgnored entries record ∨
    ∃ delta, scope isIgnored record = .kept delta ∧ (delta ∈ work.pending ∨ delta ∈ work.deferred)
  counted : work.ignoredUpserts = 0 → ∀ record ∈ taken, omitted isIgnored record = false

def Settled (entries : String → Option BaseEntry) (delta : FileDelta) : Prop :=
  ∀ pair ∈ keptAssignments delta, hashes entries pair.1 = pair.2

theorem done_of_kept (h : Settled entries delta) (hscope : scope isIgnored record = .kept delta) :
    Done isIgnored entries record := by
  rw [Done, assignments, hscope]
  exact h

theorem mem_assignments_of_kept (hscope : scope isIgnored record = .kept delta)
    (h : pair ∈ keptAssignments delta) : pair ∈ assignments isIgnored record := by
  rw [assignments, hscope]
  exact h

section
variable {isIgnored : String → Bool} {taken : List FileDelta}
  {entries : String → Option BaseEntry} {work work' : Applying}

theorem WorkOk.advance (h : WorkOk isIgnored taken entries work)
    (hrenames : ∀ delta ∈ work'.renames, delta ∈ work.renames)
    (hmoved : ∀ delta ∈ work'.moved, (delta ∈ work.renames ∨ delta ∈ work.moved) ∧
      hashes entries delta.oldPath = none)
    (hdeletions : ∀ delta ∈ work'.deletions, delta ∈ work.deletions)
    (hcontent : ∀ delta, delta ∈ work'.content ∨ delta ∈ work'.failed →
      delta ∈ work.content ∨ delta ∈ work.failed)
    (hupserts : work'.ignoredUpserts = work.ignoredUpserts)
    (hcovered : ∀ delta, delta ∈ work.pending ∨ delta ∈ work.deferred →
      delta ∈ work'.pending ∨ delta ∈ work'.deferred ∨ Settled entries delta) :
    WorkOk isIgnored taken entries work' := by
  constructor
  · intro delta hdelta
    apply h.source
    rw [Applying.mem_pending] at hdelta ⊢
    rcases hdelta with hd | hd | hd | hd
    · exact .inl (hrenames delta hd)
    · exact (hmoved delta hd).1.imp_right .inl
    · exact .inr (.inr (.inl (hdeletions delta hd)))
    · exact .inr (.inr (.inr (hcontent delta hd)))
  · intro delta hdelta
    apply h.renames
    rcases hdelta with hd | hd
    · exact .inl (hrenames delta hd)
    · exact (hmoved delta hd).1
  · exact fun delta hdelta => (hmoved delta hdelta).2
  · exact fun delta hdelta => h.deletions delta (hdeletions delta hdelta)
  · exact fun delta hdelta => h.content delta (hcontent delta hdelta)
  · intro record hrecord
    rcases h.covered record hrecord with hdone | ⟨delta, hscope, hdelta⟩
    · exact .inl hdone
    · rcases hcovered delta hdelta with hp | hd | hs
      · exact .inr ⟨delta, hscope, .inl hp⟩
      · exact .inr ⟨delta, hscope, .inr hd⟩
      · exact .inl (done_of_kept hs hscope)
  · rw [hupserts]
    exact h.counted

theorem WorkOk.assign {diff : Diff} (h : WorkOk isIgnored taken state.entries work)
    (htaken : taken ⊆ diff.records) (hcall : assignmentOf call = some pair)
    (hpair : pair ∈ diff.records.flatMap (assignments isIgnored)) :
    WorkOk isIgnored taken (call.apply env state).entries work := by
  refine { h with half := fun delta hdelta => ?_, covered := fun record hrecord => ?_ }
  · obtain ⟨record, hrecord, hscope⟩ := h.source delta (Applying.mem_pending.2 (.inr (.inl hdelta)))
    have hrenamed := h.renames delta (.inr hdelta)
    obtain ⟨hself, hother, -⟩ := apply_entries hcall
    cases delta with
    | renamed path oldPath hash size mtimeMs =>
      have hin : (oldPath, (none : Option String)) ∈ diff.records.flatMap (assignments isIgnored) :=
        mem_flatMap.2 ⟨record, htaken hrecord,
          mem_assignments_of_kept hscope (mem_cons_of_mem _ mem_cons_self)⟩
      by_cases hkey : oldPath = pair.1
      · have hsame : ((oldPath, none) : String × Option String) = pair :=
          inj_on_of_nodup_map (keys_nodup isIgnored diff) hin hpair hkey
        rw [← hsame] at hself
        exact hself
      · have hold := h.half _ hdelta
        rw [hashes, FileDelta.oldPath] at hold ⊢
        rw [hother _ hkey]
        exact hold
    | added path hash size mtimeMs => cases hrenamed
    | modified path hash size mtimeMs => cases hrenamed
    | deleted path hash => cases hrenamed
  · exact (h.covered record hrecord).imp_left fun hdone =>
      hdone.assign (htaken hrecord) hcall hpair

end

end Obsetync.Pull
