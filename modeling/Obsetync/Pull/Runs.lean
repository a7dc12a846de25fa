import Obsetync.Pull.Progress

namespace Obsetync.Pull
open SyncBase DiffPage List

/-- Every state that the calls went through, and so every state a crash can go back to, shows the
records before its cursor. -/
structure Sound (st : Setting) (starts : List Start) (w : World) : Prop where
  single : Single st.env w
  checked : ∀ k, Checked st starts (settled st.env w.origin (w.calls.take k))

section
variable {st : Setting} {starts starts' : List Start} {w : World} {call : Setter}

theorem take_concat (l : List α) (x : α) (k : Nat) :
    (l ++ [x]).take k = l.take k ∨ (l ++ [x]).take k = l ++ [x] := by
  by_cases hk : k ≤ l.length
  · exact .inl (take_append_of_le_length hk)
  · exact .inr (take_of_length_le (by rw [length_append, length_singleton]; omega))

theorem Sound.visible (h : Sound st starts w) : Checked st starts w.base.visible := by
  have hall := h.checked w.calls.length
  rw [take_length, ← h.single.visible_eq] at hall
  exact hall

theorem Sound.mono (h : Sound st starts w) (hs : starts ⊆ starts') : Sound st starts' w :=
  ⟨h.single, fun k => (h.checked k).mono hs⟩

theorem Sound.setter (h : Sound st starts w) (hb : w.base.setter st.env call = some b)
    (hcheck : Checked st starts (call.apply st.env w.base.visible)) :
    Sound st starts (w.step st.env (.setter call)) := by
  obtain ⟨hsingle, hstep⟩ := h.single.setter hb
  refine ⟨hsingle, fun k => ?_⟩
  rw [hstep]
  dsimp only
  rcases take_concat w.calls (.setter call) k with hk | hk
  · rw [hk]
    exact h.checked k
  · rw [hk, settled_setter, ← h.single.visible_eq]
    exact hcheck

theorem Sound.enqueue (h : Sound st starts w) (hwork : work = .checkpoint ∨ work = .save) :
    Sound st starts (w.enqueue work) := by
  refine ⟨h.single.enqueue hwork, fun k => ?_⟩
  rw [World.enqueue]
  dsimp only
  rcases take_concat w.calls (.queued w.base.promises) k with hk | hk
  · rw [hk]
    exact h.checked k
  · rw [hk, settled_queued, ← h.single.visible_eq]
    exact h.visible

theorem Sound.crash (h : Sound st starts w) (hload : w.base.disk.load = some state)
    (walSegments : Nat) : Sound st starts (World.loaded w.base.disk state walSegments) := by
  obtain ⟨k, hk⟩ := h.single.disk_load
  obtain rfl := Option.some.inj (hload.symm.trans hk)
  refine ⟨Single.loaded hload walSegments, fun j => ?_⟩
  rw [World.loaded, take_nil]
  exact h.checked k

theorem admissible_of_setter {b b' : Base} (h : b.setter env call = some b') :
    call.admissible = true := by
  rw [Base.setter] at h
  split_ifs at h with hbad
  simpa using hbad

theorem Sound.perform {Q : BaseState → Prop} (h : Sound st starts w) (hq : Q w.base.visible)
    (hcalls : ∀ call ∈ calls, call.admissible = true → ∀ state, Checked st starts state → Q state →
      Checked st starts (call.apply st.env state) ∧ Q (call.apply st.env state)) :
    Sound st starts (perform st.env w calls).1 ∧ ((perform st.env w calls).2 = true →
        Q (perform st.env w calls).1.base.visible ∧
        (perform st.env w calls).1.calls = w.calls ++ calls.map Item.setter ∧
        (perform st.env w calls).1.base.visible =
          calls.foldl (Setter.apply st.env) w.base.visible) := by
  induction calls generalizing w with
  | nil => exact ⟨h, fun _ => ⟨hq, (append_nil _).symm, rfl⟩⟩
  | cons call calls ih =>
    unfold Pull.perform
    split
    · exact ⟨h, nofun⟩
    · next b hb =>
      obtain ⟨hcheck, hq'⟩ := hcalls call mem_cons_self (admissible_of_setter hb) _ h.visible hq
      have hsound := h.setter hb hcheck
      have hstep := (h.single.setter hb).2
      have hvisible : (w.step st.env (.setter call)).base.visible =
          call.apply st.env w.base.visible := by
        rw [hsound.single.visible_eq, hstep, settled_setter, ← h.single.visible_eq]
      obtain ⟨hs, hdone⟩ := ih hsound (hvisible ▸ hq') fun c hc => hcalls c (mem_cons_of_mem _ hc)
      refine ⟨hs, fun hok => ?_⟩
      obtain ⟨hq'', hcalls', hvis⟩ := hdone hok
      refine ⟨hq'', ?_, ?_⟩
      · rw [hcalls', hstep, map_cons, append_assoc]
        rfl
      · rw [hvis, hvisible]
        rfl

end

def Stage.omissions : Stage → Nat
  | .applying work => work.ignoredUpserts
  | _ => 0

def Stage.inPage : Stage → Bool
  | .paged _ _ => true
  | .applying _ => true
  | _ => false

def isCursor : Item → Bool
  | .setter (.setDiffPageCheckpoint _) => true
  | _ => false

/-- Where the pull stands behind the records of `before`. -/
def StageOk (isIgnored : String → Bool) (fromRoot toRoot : FileHash)
    (entries : String → Option BaseEntry) (before rest : List FileDelta) (cursor : Bytes) :
    Stage → Prop
  | .fetching => cursor = cursorTo fromRoot toRoot before
  | .paged deltas nextCursor => ∃ left, rest = deltas ++ left ∧ (deltas = [] → left = []) ∧
    nextCursor = cursorAfter fromRoot toRoot [] deltas left
  | .applying work => ∃ taken left, rest = taken ++ left ∧ (taken = [] → left = []) ∧
    work.nextCursor = cursorAfter fromRoot toRoot [] taken left ∧
    WorkOk isIgnored taken entries work
  | .rooting => rest = []
  | .closing => rest = []

structure Known (st : Setting) (starts : List Start) (state : BaseState) (pull : Paged)
    (toRoot : FileHash) : Prop where
  track : Track st starts pull.vaultId pull.fromRoot toRoot state
  place : ∃ before rest, (st.diff pull.vaultId pull.fromRoot toRoot).records = before ++ rest ∧
    (pull.deferredCount = 0 → ∀ delta ∈ before, Done st.isIgnored state.entries delta) ∧
    (pull.durableCursorAllowed = true → ∀ delta ∈ before, omitted st.isIgnored delta = false) ∧
    StageOk st.isIgnored pull.fromRoot toRoot state.entries before rest pull.cursor pull.stage

/-- No cursor was handed to the sync base since the page came that was left incomplete. -/
def Quiet (calls : List Item) (pull : Paged) : Prop :=
  pull.durableCursorAllowed = false ∨ pull.stage.inPage = true →
    ∀ item ∈ calls.drop pull.stalledAt, isCursor item = false

structure PullOk (st : Setting) (starts : List Start) (state : BaseState) (calls : List Item)
    (pull : Paged) : Prop where
  fresh : pull.toRoot = none → state.data.diffPageCheckpoint = none ∧ pull.cursor = [] ∧
    pull.stage = .fetching
  known : ∀ toRoot, pull.toRoot = some toRoot → Known st starts state pull toRoot
  allowed : pull.durableCursorAllowed = true →
    pull.deferredCount = 0 ∧ pull.remoteOmissionCount = pull.stage.omissions
  quiet : Quiet calls pull

structure SysOk (st : Setting) (s : System) : Prop where
  sound : Sound st s.starts s.world
  pull : ∀ pull, s.pull = some pull → PullOk st s.starts s.world.base.visible s.world.calls pull

section
variable {st : Setting} {starts starts' : List Start} {state state' : BaseState} {s : System}
  {w : World} {pull pull' : Paged} {calls : List Item}

theorem mem_drop_append (h : item ∈ (l ++ [x]).drop n) : item ∈ l.drop n ∨ item = x := by
  rw [drop_append, mem_append] at h
  exact h.imp_right fun hx => mem_singleton.1 (mem_of_mem_drop hx)

theorem Quiet.append (h : Quiet calls pull) {item : Item} (hitem : isCursor item = false) :
    Quiet (calls ++ [item]) pull := by
  intro hstalled x hx
  rcases mem_drop_append hx with hx | rfl
  · exact h hstalled x hx
  · exact hitem

theorem PullOk.queued (h : PullOk st starts state calls pull) (promise : Nat) :
    PullOk st starts state (calls ++ [.queued promise]) pull :=
  { h with quiet := h.quiet.append rfl }

theorem PullOk.await (h : PullOk st starts state calls pull) (await : Option Nat) :
    PullOk st starts state calls { pull with await := await } :=
  ⟨h.fresh, fun toRoot hto => ⟨(h.known toRoot hto).track, (h.known toRoot hto).place⟩, h.allowed,
    h.quiet⟩

theorem SysOk.idle (h : Sound st starts w) : SysOk st ⟨w, none, starts⟩ :=
  ⟨h, fun _ hpull => absurd hpull (Option.some_ne_none _).symm⟩

theorem SysOk.goOn (h : Sound st starts w) (hp : PullOk st starts w.base.visible w.calls pull) :
    SysOk st ⟨w, some pull, starts⟩ := by
  refine ⟨h, fun p hsome => ?_⟩
  obtain rfl := Option.some.inj hsome
  exact hp

theorem SysOk.awaits (h : Sound st starts w) (hp : PullOk st starts w.base.visible w.calls pull)
    {work : Work} (hwork : work = .checkpoint ∨ work = .save) (await : Option Nat) :
    SysOk st ⟨w.enqueue work, some { pull with await := await }, starts⟩ :=
  SysOk.goOn (h.enqueue hwork) ((hp.queued _).await await)

theorem SysOk.calling {Q : BaseState → Prop} {calls : List Setter} {next : World → System}
    (h : SysOk st s) (hq : Q s.world.base.visible)
    (hcalls : ∀ call ∈ calls, call.admissible = true → ∀ state, Checked st s.starts state → Q state →
      Checked st s.starts (call.apply st.env state) ∧ Q (call.apply st.env state))
    (hnext : ∀ w, Sound st s.starts w → Q w.base.visible →
      w.calls = s.world.calls ++ calls.map Item.setter →
      w.base.visible = calls.foldl (Setter.apply st.env) s.world.base.visible → SysOk st (next w)) :
    SysOk st (s.calling st.env calls next) := by
  obtain ⟨hsound, hdone⟩ := h.sound.perform hq hcalls
  rw [System.calling]
  split
  · next w hperform =>
    rw [hperform] at hsound hdone
    obtain ⟨hq', hcalls', hvis⟩ := hdone rfl
    exact hnext w hsound hq' hcalls' hvis
  · next w hperform =>
    rw [hperform] at hsound
    exact SysOk.idle hsound

theorem checkpoint_cleared :
    ((Setter.clearDiffPageCheckpoint).apply env state).data.diffPageCheckpoint = none := rfl

theorem pullOk_fresh (h : state.data.diffPageCheckpoint = none) (vaultId : String)
    (localRootHash : Option FileHash) :
    PullOk st starts state calls (.fresh vaultId localRootHash) :=
  ⟨fun _ => ⟨h, rfl, rfl⟩, nofun, fun _ => ⟨rfl, rfl⟩, nofun⟩

theorem length_cursorAfter_le {diff : Diff} {fromRoot toRoot : FileHash}
    {before rest : List FileDelta} (h : diff.records = before ++ rest) :
    (cursorAfter fromRoot toRoot [] before rest).length ≤ maxCursorBytes := by
  rw [cursorAfter]
  cases hlast : before.getLast? with
  | none => exact Nat.zero_le _
  | some delta =>
    have hmem : delta ∈ diff.records := h ▸ mem_append_left _ (mem_of_getLast? hlast)
    exact length_cursorPast_le (diff.valid delta hmem)

theorem cursorAfter_eq_cursorTo (hbefore : before ≠ []) (hrest : rest ≠ []) :
    cursorAfter fromRoot toRoot [] before rest = cursorTo fromRoot toRoot before :=
  ((@asks_cursorAfter _ _ []) hbefore hrest).1

theorem pullOk_resumed (h : Checked st starts state)
    (hc : state.data.diffPageCheckpoint = some checkpoint)
    (hfrom : checkpoint.fromRoot = hexEncode (localRootHash.getD zeroRoot).val)
    (hto : rootFromHex checkpoint.toRoot = some toRoot)
    (hcursor : diffCursorFromHex checkpoint.nextCursorHex = some cursor) :
    PullOk st starts state calls (.resumed localRootHash checkpoint toRoot cursor) := by
  obtain ⟨-, fromRoot, toRoot', before, rest, hr⟩ := h checkpoint hc
  obtain rfl := hexEncode_root_inj (hr.from_eq.symm.trans hfrom)
  rw [hr.to_eq, rootFromHex_hexEncode] at hto
  obtain rfl := Option.some.inj hto
  rw [hr.cursor_eq, diffCursorFromHex_toHex (length_cursorAfter_le hr.records_eq)] at hcursor
  obtain rfl := Option.some.inj hcursor
  refine ⟨nofun, ?_, ?_, ?_⟩
  · intro toRoot hto
    obtain rfl := Option.some.inj hto
    refine ⟨⟨?_, hr.started⟩, before, rest, hr.records_eq, fun _ => hr.done, fun _ => hr.kept, ?_⟩
    · intro c hc'
      obtain rfl := Option.some.inj (hc.symm.trans hc')
      exact ⟨rfl, hfrom, hr.to_eq⟩
    · rw [Paged.resumed, hr.complete_eq]
      cases rest with
      | nil => exact rfl
      | cons delta rest =>
        have hbefore : before ≠ [] := fun hnil => cons_ne_nil _ _ (hr.progress hnil)
        exact cursorAfter_eq_cursorTo hbefore (cons_ne_nil _ _)
  · intro _
    rw [Paged.resumed]
    exact ⟨rfl, by cases checkpoint.complete <;> rfl⟩
  · rw [Paged.resumed, Quiet]
    intro hstalled
    rcases hstalled with hfalse | hpage
    · cases hfalse
    · cases hcomplete : checkpoint.complete <;> rw [hcomplete] at hpage <;> cases hpage

theorem SysOk.begin (h : SysOk st s) (vaultId : String) (localRootHash : Option FileHash)
    (supported : Bool) (hidle : s.pull = none) :
    SysOk st (s.begin st.env vaultId localRootHash supported) := by
  have hclear : ∀ call ∈ [Setter.clearDiffPageCheckpoint], call.admissible = true → ∀ state,
      Checked st s.starts state → True → Checked st s.starts (call.apply st.env state) ∧ True := by
    intro call hcall _ state _ _
    rw [mem_singleton.1 hcall]
    exact ⟨Checked.of_none checkpoint_cleared, trivial⟩
  unfold System.begin
  dsimp only
  split_ifs with hsupported hnone
  · exact h
  · apply h.calling (Q := fun _ => True) trivial hclear
    intro w hw _ _ _
    rw [hidle]
    exact SysOk.idle (hw.enqueue (.inl rfl))
  · split
    · next hfilter =>
      apply SysOk.goOn h.sound
      apply pullOk_fresh
      cases hfound : s.world.base.visible.data.diffPageCheckpoint with
      | none => rfl
      | some checkpoint =>
        rw [hfound, Option.filter_some, if_pos (h.sound.visible checkpoint hfound).1] at hfilter
        cases hfilter
    · next checkpoint hfilter =>
      have hfound := (Option.filter_eq_some_iff.1 hfilter).1
      split_ifs with hother
      · apply h.calling (Q := fun _ => True) trivial hclear
        intro w hw _ _ hvis
        apply SysOk.awaits hw _ (.inl rfl)
        apply pullOk_fresh
        rw [hvis]
        rfl
      · rw [not_or, not_not, not_not] at hother
        split
        · next toRoot cursor hto hcursor =>
          exact SysOk.goOn h.sound (pullOk_resumed h.sound.visible hfound hother.2 hto hcursor)
        · exact h

end

end Obsetync.Pull
