import Obsetync.SyncBase.History

namespace Obsetync.SyncBase
open List

def lastSequence (state : BaseState) : Option Nat :=
  state.data.lastAppliedPublication.map fun marker => marker.identity.sequence

/-- The sequence number of the applied publication, and those of the accepted ones behind it. -/
def sequencesFrom (state : BaseState) (accepted : Nat → Prop) [DecidablePred accepted]
    (calls : List Item) : List Nat :=
  (lastSequence state).toList ++ sequences accepted calls

/-- A publication that stands in the queue and is not decided. -/
structure Waiting where
  promise : Nat
  p : RootBasePublication
  version : Nat

def Waiting.traced (q : Waiting) : Traced := .publication q.promise q.p q.version

def Traced.waiting : Traced → Option Waiting
  | .publication n p v => some ⟨n, p, v⟩
  | _ => none

def Task.waiting (task : Task) : Option Waiting :=
  match task.work with
  | .publication p version _ => some ⟨task.promise, p, version⟩
  | _ => none

def Before (a b : Traced) : Prop :=
  (∀ v ∈ a.version, ∀ w ∈ b.version, v < w) ∧ ∀ n ∈ a.promise, ∀ m ∈ b.promise, n < m

/-- A choice of accepted publications that agrees with what is decided. -/
def Consistent (published : List Nat) (waiting : List Waiting) (trace : List Traced)
    (accepted : Nat → Prop) : Prop :=
  ∀ n p v, .publication n p v ∈ trace → (∀ q ∈ waiting, q.promise ≠ n) →
    (accepted n ↔ n ∈ published)

/-- The calls are those of `done`, which are durable, of `flight`, which are being written, and of
`rest`. -/
structure Core (env : Env) (b : Base) (origin : BaseState) (calls : List Item)
    (waiting : List Waiting) (done flight rest : List Traced) : Prop where
  calls_eq : calls = (done ++ (flight ++ rest)).map Traced.item
  faithful : ∀ (accepted : Nat → Prop) [DecidablePred accepted],
    Consistent b.published waiting (done ++ (flight ++ rest)) accepted →
    ∀ pre, pre <+: done ++ (flight ++ rest) →
      replay env accepted origin (pre.map Traced.item) = effect env accepted origin pre
  durable_eq : b.durable = effect env (· ∈ b.published) origin done
  rest_rows : rows rest = b.pendingOperations
  visible_eq : b.visible = effect env (· ∈ b.published) origin (done ++ (flight ++ rest))
  unaccepted : ∀ n p v, .publication n p v ∈ flight ++ rest → n ∉ b.published
  unresolved : ∀ n, .queued n ∈ flight ++ rest → n ∉ b.resolved
  sorted : (done ++ (flight ++ rest)).Pairwise Before
  bounded : ∀ t ∈ done ++ (flight ++ rest),
    (∀ v ∈ t.version, v ≤ b.mutationVersion) ∧ ∀ n ∈ t.promise, n < b.promises
  waiting_mem : ∀ q ∈ waiting, q.traced ∈ rest
  barriers_eq : b.publicationBarriers = waiting.map Waiting.version
  settled_lt : ∀ n ∈ b.published ++ b.resolved, n < b.promises
  valid : ∀ row ∈ rows (flight ++ rest), validateOperation row.operation
  rising : (sequencesFrom origin (· ∈ b.published) (done.map Traced.item)).Pairwise (· < ·)

theorem Core.of_eq (h : Core env b origin calls waiting done flight rest)
    (hpublished : b'.published = b.published) (hdurable : b'.durable = b.durable)
    (hpending : b'.pendingOperations = b.pendingOperations) (hvisible : b'.visible = b.visible)
    (hresolved : b'.resolved = b.resolved) (hversion : b'.mutationVersion = b.mutationVersion)
    (hpromises : b.promises ≤ b'.promises)
    (hbarriers : b'.publicationBarriers = b.publicationBarriers) :
    Core env b' origin calls waiting done flight rest := by
  constructor
  · exact h.calls_eq
  · rw [hpublished]
    exact h.faithful
  · rw [hdurable, hpublished]
    exact h.durable_eq
  · rw [hpending]
    exact h.rest_rows
  · rw [hvisible, hpublished]
    exact h.visible_eq
  · rw [hpublished]
    exact h.unaccepted
  · rw [hresolved]
    exact h.unresolved
  · exact h.sorted
  · intro t ht
    rw [hversion]
    exact ⟨(h.bounded t ht).1, fun n hn => ((h.bounded t ht).2 n hn).trans_le hpromises⟩
  · exact h.waiting_mem
  · rw [hbarriers]
    exact h.barriers_eq
  · rw [hpublished, hresolved]
    exact fun n hn => (h.settled_lt n hn).trans_le hpromises
  · exact h.valid
  · rw [hpublished]
    exact h.rising

theorem sequencesFrom_append [DecidablePred accepted] :
    sequencesFrom state accepted (a ++ b) = sequencesFrom state accepted a ++ sequences accepted b := by
  rw [sequencesFrom, sequencesFrom, sequences, filterMap_append, ← append_assoc]
  rfl

theorem lastSequence_applyBaseOperation :
    lastSequence (applyBaseOperation state op) = lastSequence state := by
  cases op <;> rfl

theorem sequencesFrom_getLast? [DecidablePred accepted] (env : Env) :
    (sequencesFrom origin accepted (trace.map Traced.item)).getLast? =
      lastSequence (effect env accepted origin trace) := by
  induction trace using List.reverseRecOn with
  | nil =>
    rw [sequencesFrom, sequences, map_nil, filterMap_nil, append_nil]
    change _ = lastSequence origin
    cases lastSequence origin <;> rfl
  | append_singleton trace t ih =>
    rw [map_append, sequencesFrom_append, getLast?_append, ih, effect_append]
    cases t with
    | silent call => rfl
    | queued promise => rfl
    | recorded call row => exact (lastSequence_applyBaseOperation).symm
    | publication n p v =>
      change (sequences accepted [.publication n p]).getLast?.or _ =
        lastSequence (if accepted n then _ else _)
      rw [sequences, filterMap_cons, filterMap_nil]
      dsimp only
      split_ifs <;> rfl

section
variable {env : Env} {b : Base} {origin : BaseState} {calls : List Item} {waiting : List Waiting}
  {done flight rest : List Traced}

theorem consistent_published : Consistent published waiting trace (· ∈ published) :=
  fun _ _ _ _ _ => Iff.rfl

theorem eq_of_promise {trace : List Traced} (h : trace.Pairwise Before) (hs : s ∈ trace)
    (ht : t ∈ trace) (hn : n ∈ s.promise) (hm : n ∈ t.promise) : s = t := by
  obtain ⟨i, hi, rfl⟩ := getElem_of_mem hs
  obtain ⟨j, hj, rfl⟩ := getElem_of_mem ht
  rw [pairwise_iff_getElem] at h
  rcases lt_trichotomy i j with hij | rfl | hji
  · exact absurd ((h i j hi hj hij).2 n hn n hm) (lt_irrefl n)
  · rfl
  · exact absurd ((h j i hj hi hji).2 n hm n hn) (lt_irrefl n)

theorem Core.visible_replay (h : Core env b origin calls waiting done flight rest) :
    b.visible = replay env (· ∈ b.published) origin calls := by
  rw [h.visible_eq, h.calls_eq, h.faithful _ consistent_published _ (prefix_refl _)]

theorem Core.durable_replay (h : Core env b origin calls waiting done flight rest) :
    b.durable = replay env (· ∈ b.published) origin (calls.take done.length) := by
  have htake : calls.take done.length = done.map Traced.item := by
    rw [h.calls_eq, map_append, take_append_of_le_length (by simp), take_of_length_le (by simp)]
  rw [h.durable_eq, htake, h.faithful _ consistent_published _ (prefix_append _ _)]

/-- What two choices of the waiting publications have in common with the visible state. -/
structure Agrees (visible state : BaseState) (waiting : List Waiting) : Prop where
  kept_eq : kept state = kept visible
  entries_eq : ∀ path, (∀ q ∈ waiting, path ∉ q.p.paths) → state.entries path = visible.entries path
  eq_of_nil : waiting = [] → state = visible

theorem Core.agrees (h : Core env b origin calls waiting done flight rest)
    {accepted : Nat → Prop} [DecidablePred accepted]
    (hacc : Consistent b.published waiting (done ++ (flight ++ rest)) accepted) :
    Agrees b.visible (effect env accepted origin (done ++ (flight ++ rest))) waiting := by
  rw [h.visible_eq]
  constructor
  · exact effect_kept _ rfl
  · intro path hpath
    apply effect_entries _ rfl
    intro n p v hm hp
    apply hacc n p v hm
    intro q hq hn
    have hmem : q.traced ∈ done ++ (flight ++ rest) :=
      mem_append_right _ (mem_append_right _ (h.waiting_mem q hq))
    have hsame : q.traced = .publication n p v :=
      eq_of_promise h.sorted hmem hm (congrArg some hn) rfl
    injection hsame with _ hqp _
    exact hpath q hq (hqp ▸ hp)
  · rintro rfl
    apply effect_congr
    intro n p v hm
    exact hacc n p v hm nofun

theorem Agrees.setter_apply (h : Agrees s.visible state waiting)
    (hbarriers : s.publicationBarriers = waiting.map Waiting.version)
    (hpaths : ∀ q ∈ waiting, ∀ path ∈ q.p.paths, path ∈ s.queuedPaths)
    (hc : Careful s (.setter call)) :
    call.apply env state = (s.operationOf env call).elim state (applyBaseOperation state) := by
  have hnil (hb : s.publicationBarriers = []) : state = s.visible :=
    h.eq_of_nil (map_eq_nil_iff.1 (hbarriers.symm.trans hb))
  cases call with
  | setEntry path hash mtime size treeMtime => rfl
  | refreshLocalMetadata path mtime size =>
    have hentry := h.entries_eq path fun q hq hp => hc.2 (hpaths q hq path hp)
    rw [Setter.apply, Base.operationOf, hentry]
  | removeEntry path => rfl
  | setTreeBaseRoot hash =>
    rw [Base.operationOf]
    split_ifs with hsame
    · obtain ⟨hroot, hb⟩ := hsame
      rw [← hnil hb] at hroot
      rw [← hroot]
      rfl
    · rfl
  | setVerifiedBaseRequired required =>
    rw [Base.operationOf]
    split_ifs with hsame
    · rw [← hnil (hc.2 hsame)] at hsame
      rw [← hsame]
      rfl
    · rfl
  | setDiffPageCheckpoint checkpoint => rfl
  | clearDiffPageCheckpoint =>
    rw [Base.operationOf]
    split_ifs with hsame
    · have hpage : state.data.diffPageCheckpoint = s.visible.data.diffPageCheckpoint :=
        congrArg Prod.fst h.kept_eq
      rw [← hpage] at hsame
      change applyBaseOperation state (.diffPage none) = state
      rw [← hsame]
      rfl
    · rfl
  | approveBulkChange vaultId total trackedDeletions approvedAt => rfl
  | clearBulkChangeApproval =>
    rw [Base.operationOf]
    split_ifs with hsame
    · have hbulk : state.data.bulkChangeApproval = s.visible.data.bulkChangeApproval :=
        congrArg Prod.snd h.kept_eq
      rw [← hbulk] at hsame
      change applyBaseOperation state (.bulkApproval none) = state
      rw [← hsame]
      rfl
    · rfl
  | setLastSyncTimestamp ts => rfl

/-- What a call does to the sync base before its queue runs. -/
structure Appends (env : Env) (b b' : Base) (t : Traced) : Prop where
  published : b'.published = b.published
  resolved : b'.resolved = b.resolved
  durable : b'.durable = b.durable
  pending : b'.pendingOperations = b.pendingOperations ++ t.row.toList
  visible : b'.visible = t.apply env (· ∈ b.published) b.visible
  barriers : b'.publicationBarriers =
    b.publicationBarriers ++ (t.waiting.map Waiting.version).toList
  version_le : b.mutationVersion ≤ b'.mutationVersion
  promises_le : b.promises ≤ b'.promises
  fresh_version : ∀ v ∈ t.version, b.mutationVersion < v ∧ v ≤ b'.mutationVersion
  fresh_promise : ∀ n ∈ t.promise, b.promises ≤ n ∧ n < b'.promises
  valid : ∀ row ∈ t.row, validateOperation row.operation

theorem Core.append (h : Core env b origin calls waiting done flight rest) {b' : Base} {t : Traced}
    (ht : Appends env b b' t)
    (hmeaning : ∀ (accepted : Nat → Prop) [DecidablePred accepted] (state : BaseState),
      Agrees b.visible state waiting → t.item.apply env accepted state = t.apply env accepted state) :
    Core env b' origin (calls ++ [t.item]) (waiting ++ t.waiting.toList) done flight
      (rest ++ [t]) := by
  have htrace : done ++ (flight ++ (rest ++ [t])) = done ++ (flight ++ rest) ++ [t] := by simp
  have htail : flight ++ (rest ++ [t]) = flight ++ rest ++ [t] := by simp
  have hfresh {n : Nat} (hn : n ∈ t.promise) : ∀ m ∈ b.published ++ b.resolved, m ≠ n :=
    fun m hm => ((h.settled_lt m hm).trans_le (ht.fresh_promise n hn).1).ne
  constructor
  · rw [htrace, map_append, ← h.calls_eq]
    rfl
  · intro accepted _ hacc pre hpre
    rw [htrace] at hacc hpre
    have hold : Consistent b.published waiting (done ++ (flight ++ rest)) accepted := by
      intro n p v hm hw
      rw [← ht.published]
      apply hacc n p v (mem_append_left _ hm)
      intro q hq
      rcases mem_append.1 hq with hq | hq
      · exact hw q hq
      · -- The new publication has a promise of its own.
        intro hqn
        cases t with
        | publication n' p' v' =>
          obtain rfl := mem_singleton.1 hq
          have hlt := (h.bounded _ hm).2 n rfl
          have hle := (ht.fresh_promise n' rfl).1
          exact absurd hqn (hlt.trans_le hle).ne'
        | silent call => cases hq
        | queued promise => cases hq
        | recorded call row => cases hq
    rcases prefix_concat_iff.1 hpre with rfl | hpre
    · rw [map_append, replay_append, effect_append, h.faithful accepted hold _ (prefix_refl _)]
      exact hmeaning accepted _ (h.agrees hold)
    · exact h.faithful accepted hold pre hpre
  · rw [ht.durable, ht.published]
    exact h.durable_eq
  · rw [rows_append, h.rest_rows, ht.pending]
    cases t <;> rfl
  · rw [ht.visible, ht.published, htrace, effect_append, ← h.visible_eq]
    rfl
  · intro n p v hm
    rw [ht.published]
    rw [htail] at hm
    rcases mem_append.1 hm with hm | hm
    · exact h.unaccepted n p v hm
    · obtain rfl := mem_singleton.1 hm
      exact fun hn => hfresh rfl n (mem_append_left _ hn) rfl
  · intro n hm
    rw [ht.resolved]
    rw [htail] at hm
    rcases mem_append.1 hm with hm | hm
    · exact h.unresolved n hm
    · obtain rfl := mem_singleton.1 hm
      exact fun hn => hfresh rfl n (mem_append_right _ hn) rfl
  · rw [htrace, pairwise_append]
    refine ⟨h.sorted, pairwise_singleton _ _, ?_⟩
    intro s hs t' ht'
    obtain rfl := mem_singleton.1 ht'
    constructor
    · intro v hv w hw
      exact ((h.bounded s hs).1 v hv).trans_lt (ht.fresh_version w hw).1
    · intro n hn m hm
      exact ((h.bounded s hs).2 n hn).trans_le (ht.fresh_promise m hm).1
  · intro s hs
    rw [htrace] at hs
    rcases mem_append.1 hs with hs | hs
    · exact ⟨fun v hv => ((h.bounded s hs).1 v hv).trans ht.version_le,
        fun n hn => ((h.bounded s hs).2 n hn).trans_le ht.promises_le⟩
    · obtain rfl := mem_singleton.1 hs
      exact ⟨fun v hv => (ht.fresh_version v hv).2, fun n hn => (ht.fresh_promise n hn).2⟩
  · intro q hq
    rcases mem_append.1 hq with hq | hq
    · exact mem_append_left _ (h.waiting_mem q hq)
    · apply mem_append_right
      cases t with
      | publication n p v =>
        obtain rfl := mem_singleton.1 hq
        exact mem_cons_self
      | silent call => cases hq
      | queued promise => cases hq
      | recorded call row => cases hq
  · rw [ht.barriers, h.barriers_eq, map_append]
    cases t.waiting <;> rfl
  · rw [ht.published, ht.resolved]
    exact fun n hn => (h.settled_lt n hn).trans_le ht.promises_le
  · intro row hrow
    rw [htail, rows_append] at hrow
    rcases mem_append.1 hrow with hrow | hrow
    · exact h.valid row hrow
    · apply ht.valid
      cases t with
      | recorded call row' =>
        obtain rfl := mem_singleton.1 hrow
        rfl
      | silent call => cases hrow
      | queued promise => cases hrow
      | publication n p v => cases hrow
  · rw [ht.published]
    exact h.rising

theorem sequences_eq_nil [DecidablePred accepted] {trace : List Traced}
    (h : ∀ n p v, .publication n p v ∈ trace → ¬ accepted n) :
    sequences accepted (trace.map Traced.item) = [] := by
  rw [sequences, filterMap_eq_nil_iff]
  intro item hitem
  obtain ⟨t, ht, rfl⟩ := mem_map.1 hitem
  cases t with
  | silent call => rfl
  | queued promise => rfl
  | recorded call row => rfl
  | publication n p v => exact if_neg (h n p v ht)

theorem Core.settle {r : List Traced}
    (h : Core env b origin calls waiting done flight (r ++ rest)) (hr : rows r = [])
    (hwait : ∀ q ∈ waiting, q.traced ∈ rest) :
    Core env { b with durable := Base.applyPending b.durable (rows flight) } origin calls waiting
      (done ++ (flight ++ r)) [] rest := by
  have htrace : done ++ (flight ++ r) ++ ([] ++ rest) = done ++ (flight ++ (r ++ rest)) := by simp
  have hout : ∀ n p v, .publication n p v ∈ flight ++ r → n ∉ b.published := by
    intro n p v hm
    apply h.unaccepted n p v
    rw [← append_assoc]
    exact mem_append_left _ hm
  have hsub {t : Traced} (ht : t ∈ [] ++ rest) : t ∈ flight ++ (r ++ rest) :=
    mem_append_right _ (mem_append_right _ ht)
  constructor
  · rw [htrace]
    exact h.calls_eq
  · rw [htrace]
    exact h.faithful
  · rw [effect_append, ← h.durable_eq, effect_eq_applyPending hout, rows_append, hr, append_nil]
  · rw [← h.rest_rows, rows_append, hr]
    rfl
  · rw [htrace]
    exact h.visible_eq
  · exact fun n p v hm => h.unaccepted n p v (hsub hm)
  · exact fun n hm => h.unresolved n (hsub hm)
  · rw [htrace]
    exact h.sorted
  · rw [htrace]
    exact h.bounded
  · exact hwait
  · exact h.barriers_eq
  · exact h.settled_lt
  · intro row hrow
    apply h.valid
    rw [rows_append, rows_append]
    exact mem_append_right _ (mem_append_right _ hrow)
  · rw [map_append, sequencesFrom_append, sequences_eq_nil hout, append_nil]
    exact h.rising

theorem Core.takeOff (h : Core env b origin calls waiting done [] (r ++ rest))
    (hwait : ∀ q ∈ waiting, q.traced ∈ rest) :
    Core env { b with pendingOperations := rows rest } origin calls waiting done r rest where
  calls_eq := h.calls_eq
  faithful := h.faithful
  durable_eq := h.durable_eq
  rest_rows := rfl
  visible_eq := h.visible_eq
  unaccepted := h.unaccepted
  unresolved := h.unresolved
  sorted := h.sorted
  bounded := h.bounded
  waiting_mem := hwait
  barriers_eq := h.barriers_eq
  settled_lt := h.settled_lt
  valid := h.valid
  rising := h.rising

theorem Core.bringBack (h : Core env b origin calls waiting done flight rest) :
    Core env { b with pendingOperations := rows flight ++ b.pendingOperations } origin calls waiting
      done [] (flight ++ rest) where
  calls_eq := h.calls_eq
  faithful := h.faithful
  durable_eq := h.durable_eq
  rest_rows := by rw [rows_append, h.rest_rows]
  visible_eq := h.visible_eq
  unaccepted := h.unaccepted
  unresolved := h.unresolved
  sorted := h.sorted
  bounded := h.bounded
  waiting_mem := fun q hq => mem_append_right _ (h.waiting_mem q hq)
  barriers_eq := h.barriers_eq
  settled_lt := h.settled_lt
  valid := h.valid
  rising := h.rising

theorem Core.decide (h : Core env b origin calls (q :: waiting) done flight rest) :
    Core env (b.removePublicationBarrier q.version) origin calls waiting done flight rest where
  calls_eq := h.calls_eq
  faithful := by
    intro accepted _ hacc
    apply h.faithful accepted
    intro n p v hm hw
    exact hacc n p v hm fun r hr => hw r (mem_cons_of_mem _ hr)
  durable_eq := h.durable_eq
  rest_rows := h.rest_rows
  visible_eq := h.visible_eq
  unaccepted := h.unaccepted
  unresolved := h.unresolved
  sorted := h.sorted
  bounded := h.bounded
  waiting_mem := fun r hr => h.waiting_mem r (mem_cons_of_mem _ hr)
  barriers_eq := by
    rw [Base.removePublicationBarrier, h.barriers_eq, map_cons, erase_cons_head]
  settled_lt := h.settled_lt
  valid := h.valid
  rising := h.rising

theorem pairwise_concat {l : List Nat} (h : l.Pairwise (· < ·)) (hlast : ∀ s ∈ l.getLast?, s < m) :
    (l ++ [m]).Pairwise (· < ·) := by
  rw [pairwise_append]
  refine ⟨h, pairwise_singleton _ _, ?_⟩
  intro x hx y hy
  obtain rfl := mem_singleton.1 hy
  obtain ⟨pre, s, rfl⟩ := eq_nil_or_concat' l |>.resolve_left (ne_nil_of_mem hx)
  have hs : s < y := hlast s (by simp)
  rcases mem_append.1 hx with hx | hx
  · exact ((pairwise_append.1 h).2.2 x hx s mem_cons_self).trans hs
  · rw [mem_singleton.1 hx]
    exact hs

/-- What the acceptance of the first call of `rest` gives. -/
structure Accepts (env : Env) (b : Base) (origin : BaseState) (done : List Traced) (q : Waiting) :
    Prop where
  consistent : ∀ trace waiting, Consistent b.published (q :: waiting) trace
    (· ∈ q.promise :: b.published)
  effect_eq : effect env (· ∈ q.promise :: b.published) origin (done ++ [q.traced]) =
    applyPublication env b.durable q.p
  rising : (sequencesFrom origin (· ∈ q.promise :: b.published)
    ((done ++ [q.traced]).map Traced.item)).Pairwise (· < ·)

theorem Core.accepts {q : Waiting}
    (h : Core env b origin calls (q :: waiting) done [] (q.traced :: rest))
    (hf : mayFollow b.durable.data.lastAppliedPublication (publicationMarker env q.p)) :
    Accepts env b origin done q := by
  -- The promise of the publication is not one of `done`.
  have hdone : ∀ n p v, .publication n p v ∈ done →
      (n ∈ q.promise :: b.published ↔ n ∈ b.published) := by
    intro n p v hm
    have hlt : n < q.promise :=
      ((pairwise_append.1 h.sorted).2.2 _ hm q.traced mem_cons_self).2 n rfl _ rfl
    rw [mem_cons, or_iff_right hlt.ne]
  have hstart : effect env (· ∈ q.promise :: b.published) origin done = b.durable := by
    rw [h.durable_eq]
    exact effect_congr hdone _
  constructor
  · intro trace waiting' n p v _ hw
    exact mem_cons.trans (or_iff_right (hw q mem_cons_self).symm)
  · rw [effect_append, hstart]
    exact if_pos mem_cons_self
  · have hold : sequencesFrom origin (· ∈ q.promise :: b.published) (done.map Traced.item) =
        sequencesFrom origin (· ∈ b.published) (done.map Traced.item) := by
      rw [sequencesFrom, sequencesFrom, sequences, sequences]
      congr 1
      apply filterMap_congr
      intro item hitem
      obtain ⟨t, ht, rfl⟩ := mem_map.1 hitem
      cases t with
      | silent call => rfl
      | queued promise => rfl
      | recorded call row => rfl
      | publication n p v => exact if_congr (hdone n p v ht) rfl rfl
    have hnew : sequences (· ∈ q.promise :: b.published) ([q.traced].map Traced.item) =
        [q.p.identity.sequence] := by
      rw [sequences]
      exact filterMap_cons_some (if_pos mem_cons_self)
    rw [map_append, sequencesFrom_append, hold, hnew]
    apply pairwise_concat h.rising
    rw [sequencesFrom_getLast? env, ← h.durable_eq, lastSequence]
    intro s hs
    obtain ⟨marker, hmarker, rfl⟩ := Option.mem_map.1 hs
    rw [mayFollow, hmarker] at hf
    have hboth := Bool.and_eq_true_iff.1 hf
    exact of_decide_eq_true hboth.2

end

end Obsetync.SyncBase
