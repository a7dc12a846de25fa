import Obsetync.SyncBase.Order

namespace Obsetync.SyncBase
open List

section
variable {env : Env} {b : Base} {origin : BaseState} {calls : List Item} {waiting : List Waiting}
  {done flight rest : List Traced}

theorem exists_recorded {trace : List Traced} (h : row ∈ rows trace) :
    ∃ call, .recorded call row ∈ trace := by
  obtain ⟨t, ht, hrow⟩ := mem_filterMap.1 h
  cases t with
  | recorded call row' =>
    obtain rfl := Option.some.inj hrow
    exact ⟨call, ht⟩
  | silent call => cases hrow
  | queued promise => cases hrow
  | publication n p v => cases hrow

theorem Core.split_flushable (h : Core env b origin calls waiting done [] rest)
    (hw : waiting.Pairwise fun q r => q.promise < r.promise) :
    ∃ r rest', rest = r ++ rest' ∧ rows r = b.flushable ∧
      rows rest' = b.pendingOperations.drop b.flushable.length ∧
      (∀ q ∈ waiting, q.traced ∈ rest') ∧
      ∀ q ws, waiting = q :: ws → ∃ tail, rest' = q.traced :: tail := by
  have hbarriers := h.barriers_eq
  cases waiting with
  | nil =>
    have hflush : b.flushable = b.pendingOperations := by
      rw [Base.flushable, hbarriers]
      rfl
    refine ⟨rest, [], by simp, by rw [hflush, h.rest_rows], ?_, nofun, nofun⟩
    rw [hflush, drop_length]
    rfl
  | cons q ws =>
    have hmem := h.waiting_mem q mem_cons_self
    obtain ⟨r, tail, rfl⟩ := append_of_mem hmem
    have hsorted := (pairwise_append.1 h.sorted).2.1
    rw [nil_append, pairwise_append, pairwise_cons] at hsorted
    obtain ⟨-, ⟨hafter, -⟩, hbefore⟩ := hsorted
    have hpending : b.pendingOperations = rows r ++ rows tail := by
      rw [← h.rest_rows, rows_append]
      rfl
    have hflush : b.flushable = rows r := by
      have hcut : b.flushable = b.pendingOperations.takeWhile (·.version < q.version) := by
        rw [Base.flushable, hbarriers]
        rfl
      have htail : (rows tail).takeWhile (·.version < q.version) = [] := by
        cases hrows : rows tail with
        | nil => rfl
        | cons row rs =>
          obtain ⟨call, hcall⟩ := exists_recorded (hrows ▸ mem_cons_self : row ∈ rows tail)
          have hlt : q.version < row.version := (hafter _ hcall).1 _ rfl _ rfl
          rw [takeWhile_cons_of_neg]
          simpa using hlt.le
      rw [hcut, hpending, takeWhile_append_of_pos, htail, append_nil]
      intro row hrow
      obtain ⟨call, hcall⟩ := exists_recorded hrow
      exact decide_eq_true ((hbefore _ hcall _ mem_cons_self).1 _ rfl _ rfl)
    refine ⟨r, q.traced :: tail, rfl, hflush.symm, ?_, ?_, ?_⟩
    · rw [hflush, hpending, drop_left]
      rfl
    · intro q' hq'
      rcases mem_cons.1 hq' with rfl | hq'
      · exact mem_cons_self
      · have hlt := rel_of_pairwise_cons hw hq'
        rcases mem_append.1 (h.waiting_mem q' (mem_cons_of_mem _ hq')) with hr | hr
        · have hgt : q'.promise < q.promise :=
            (hbefore _ hr _ mem_cons_self).2 _ rfl _ rfl
          exact absurd hlt hgt.asymm
        · exact hr
    · rintro q' ws' heq
      injection heq with hq _
      exact ⟨tail, by rw [hq]⟩

theorem Core.resolveCheckpoint (h : Core env b origin calls waiting done [] rest)
    (hw : waiting.Pairwise fun q r => q.promise < r.promise) (hflush : b.flushable = [])
    (hn : ∀ q ∈ waiting, n < q.promise) (hlt : n < b.promises) :
    ∃ done' rest', Core env { b with resolved := n :: b.resolved } origin calls waiting done' []
      rest' := by
  have hresolve {done' rest' : List Traced} (hcore : Core env b origin calls waiting done' [] rest')
      (hmem : Traced.queued n ∉ rest') :
      Core env { b with resolved := n :: b.resolved } origin calls waiting done' [] rest' :=
    { hcore with
      unresolved := by
        intro m hm hres
        rcases mem_cons.1 hres with rfl | hres
        · exact hmem hm
        · exact hcore.unresolved m hm hres
      settled_lt := by
        intro m hm
        rcases mem_append.1 hm with hm | hm
        · exact hcore.settled_lt m (mem_append_left _ hm)
        · rcases mem_cons.1 hm with rfl | hm
          · exact hlt
          · exact hcore.settled_lt m (mem_append_right _ hm) }
  by_cases hmem : Traced.queued n ∈ rest
  · obtain ⟨r, tail, rfl⟩ := append_of_mem hmem
    have hsorted := (pairwise_append.1 h.sorted).2.1
    rw [nil_append, pairwise_append, pairwise_cons] at hsorted
    obtain ⟨-, ⟨hafter, -⟩, hbefore⟩ := hsorted
    have htail : ∀ q ∈ waiting, q.traced ∈ tail := by
      intro q hq
      rcases mem_append.1 (h.waiting_mem q hq) with hr | hr
      · have hgt : q.promise < n := (hbefore _ hr _ mem_cons_self).2 _ rfl _ rfl
        exact absurd (hn q hq) hgt.asymm
      · rcases mem_cons.1 hr with heq | hr
        · cases heq
        · exact hr
    have hrows : rows r = [] := by
      obtain ⟨s, rest', hsplit, hs, -, -, hhead⟩ := h.split_flushable hw
      rw [hflush] at hs
      rw [eq_nil_iff_forall_not_mem]
      intro row hrow
      have hrest : row ∈ rows s ++ rows rest' := by
        rw [← rows_append, ← hsplit, rows_append]
        exact mem_append_left _ hrow
      rw [hs, nil_append] at hrest
      cases waiting with
      | nil =>
        have hall : rows (r ++ Traced.queued n :: tail) = [] := by
          rw [h.rest_rows, ← hflush, Base.flushable, h.barriers_eq]
          rfl
        rw [rows_append] at hall
        exact ne_nil_of_mem hrow (append_eq_nil_iff.1 hall).1
      | cons q ws =>
        -- The row stands on both sides of the first waiting publication.
        obtain ⟨call, hcall⟩ := exists_recorded hrow
        have hlt : row.version < q.version :=
          (hbefore _ hcall _ (mem_cons_of_mem _ (htail q mem_cons_self))).1 _ rfl _ rfl
        obtain ⟨tail', rfl⟩ := hhead q ws rfl
        obtain ⟨call', hcall'⟩ := @exists_recorded _ tail' hrest
        have hsorted' := (pairwise_append.1 h.sorted).2.1
        rw [nil_append, hsplit, pairwise_append, pairwise_cons] at hsorted'
        exact absurd ((hsorted'.2.1.1 _ hcall').1 _ rfl _ rfl) hlt.asymm
    have hmove : Core env b origin calls waiting done [] ((r ++ [.queued n]) ++ tail) := by
      rw [append_assoc]
      exact h
    have hrows' : rows (r ++ [.queued n]) = [] := by
      rw [rows_append, hrows]
      rfl
    refine ⟨_, tail, hresolve (hmove.settle hrows' htail) ?_⟩
    intro hm
    exact absurd ((hafter _ hm).2 n rfl n rfl) (lt_irrefl n)
  · exact ⟨done, rest, hresolve h hmem⟩

end

structure Task.Before (s t : Task) : Prop where
  promise_lt : s.promise < t.promise
  version_lt : ∀ q ∈ s.waiting, ∀ r ∈ t.waiting, q.version < r.version
  load_last : s.work = .load → t.waiting = none

/-- The queue, whose first publication may be decided already. -/
structure ChainOk (b : Base) (decided : Bool) (waiting : List Waiting) (calls : List Item) : Prop where
  waiting_eq : waiting =
    (if decided then b.writeChain.tail else b.writeChain).filterMap Task.waiting
  sorted : b.writeChain.Pairwise Task.Before
  bounded : ∀ t ∈ b.writeChain, t.promise < b.promises ∧
    ∀ q ∈ t.waiting, q.version ≤ b.mutationVersion
  valid : ∀ t ∈ b.writeChain, ∀ q ∈ t.waiting,
    q.p.entries.all fun row => validateOperation row.operation
  resolved_le : ∀ n ∈ b.resolved, ∀ t ∈ b.writeChain, n ≤ t.promise
  loads : ∀ t ∈ b.writeChain, t.work = .load → ∀ item ∈ behind t.promise calls,
    ∃ n, item = .queued n

theorem ChainOk.of_eq (h : ChainOk b decided waiting calls) (hchain : b'.writeChain = b.writeChain)
    (hpromises : b'.promises = b.promises) (hversion : b'.mutationVersion = b.mutationVersion)
    (hresolved : b'.resolved = b.resolved) : ChainOk b' decided waiting calls := by
  constructor
  · rw [hchain]
    exact h.waiting_eq
  · rw [hchain]
    exact h.sorted
  · rw [hchain, hpromises, hversion]
    exact h.bounded
  · rw [hchain]
    exact h.valid
  · rw [hchain, hresolved]
    exact h.resolved_le
  · rw [hchain]
    exact h.loads

theorem promise_of_waiting {t : Task} (h : q ∈ t.waiting) : q.promise = t.promise := by
  rw [Task.waiting] at h
  split at h
  · obtain rfl := Option.some.inj h
    rfl
  · cases h

def AfterSnapshot.Ok (env : Env) (task : Task) : AfterSnapshot → Prop
  | .publication p version =>
    (∃ bytes, task.work = .publication p version bytes) ∧
      validatePublicationMarker (publicationMarker env p)
  | .done => task.waiting = none

def AfterFlush.Ok (env : Env) (task : Task) : AfterFlush → Prop
  | .beforePublication p version => AfterSnapshot.Ok env task (.publication p version)
  | .checkpoint => task.waiting = none
  | .save => task.waiting = none
  | .snapshot _ next => next.Ok env task
  | _ => task.waiting ≠ none

def AfterFlush.decided : AfterFlush → Bool
  | .alreadyApplied => true
  | .afterPublication => true
  | _ => false

def Base.decided (s : Base) : Bool :=
  match s.current with
  | some (.commit _ _ after) => after.decided
  | _ => false

def StageOk (env : Env) (b : Base) (task : Task) (flight rest : List Traced) : Await → Prop
  | .load => flight = [] ∧ task.work = .load ∧ b.writable = false
  | .digest p version => flight = [] ∧ (∃ bytes, task.work = .publication p version bytes) ∧
    b.writable = true
  | .commit operations next after => rows flight = operations ∧
    next = Base.applyPending b.durable operations ∧ after.Ok env task ∧ b.writable = true
  | .snapshot captured _ after => flight = [] ∧ captured = b.durable ∧ after.Ok env task ∧
    b.writable = true
  | .publish rs next version => flight = [] ∧ b.writable = true ∧ ∃ p bytes tail,
    task.work = .publication p version bytes ∧ rs = publicationRows env p ∧
    applyRows b.durable rs = some next ∧ rs.all validateRow ∧
    rest = .publication task.promise p version :: tail

/-- The disk holds the durable state; after a failed write, a longer part of the calls perhaps. -/
structure DiskOk (env : Env) (w : World) (done : List Traced) : Prop where
  writable : w.base.writable = true → w.base.disk.load = some w.base.durable
  landed : w.base.writable = false → ∃ (landed : List Nat) (k : Nat),
    w.base.published ⊆ landed ∧ done.length ≤ k ∧ k ≤ w.calls.length ∧
    w.base.disk.load = some (replay env (· ∈ landed) w.origin (w.calls.take k)) ∧
    (sequencesFrom w.origin (· ∈ landed) (w.calls.take k)).Pairwise (· < ·)

structure Inv (env : Env) (w : World) (waiting : List Waiting) (done flight rest : List Traced) :
    Prop where
  core : Core env w.base w.origin w.calls waiting done flight rest
  chain : ChainOk w.base w.base.decided waiting w.calls
  stage : ∀ stage, w.base.current = some stage → ∃ task tail, w.base.writeChain = task :: tail ∧
    StageOk env w.base task flight rest stage
  idle : w.base.current = none → flight = []
  disk : DiskOk env w done

def Good (env : Env) (w : World) : Prop :=
  ∃ waiting done flight rest, Inv env w waiting done flight rest

section
variable {env : Env} {b : Base} {origin : BaseState} {calls : List Item} {waiting : List Waiting}
  {done flight rest : List Traced} {task : Task} {tail : List Task} {decided : Bool}

theorem ChainOk.waiting_sorted (h : ChainOk b decided waiting calls) :
    waiting.Pairwise fun q r => q.promise < r.promise := by
  have hchain : (if decided then b.writeChain.tail else b.writeChain).Pairwise Task.Before := by
    split_ifs
    · exact h.sorted.sublist (tail_sublist _)
    · exact h.sorted
  rw [h.waiting_eq, pairwise_filterMap]
  apply hchain.imp
  intro s t hst q hq r hr
  rw [promise_of_waiting hq, promise_of_waiting hr]
  exact hst.promise_lt

theorem ChainOk.waiting_cons (h : ChainOk b false waiting calls)
    (hchain : b.writeChain = task :: tail) (hq : q ∈ task.waiting) :
    waiting = q :: tail.filterMap Task.waiting := by
  rw [h.waiting_eq, if_neg Bool.false_ne_true, hchain, filterMap_cons, Option.mem_def.1 hq]

theorem ChainOk.waiting_tail (h : ChainOk b decided waiting calls) (hchain : b.writeChain = task :: tail)
    (htask : task.waiting = none) : waiting = tail.filterMap Task.waiting := by
  rw [h.waiting_eq, hchain, tail_cons]
  split_ifs
  · rfl
  · exact filterMap_cons_none htask

theorem ChainOk.promise_lt (h : ChainOk b decided waiting calls) (hchain : b.writeChain = task :: tail)
    (htask : task.waiting = none) : ∀ q ∈ waiting, task.promise < q.promise := by
  intro q hq
  rw [h.waiting_tail hchain htask] at hq
  obtain ⟨t, ht, hqt⟩ := mem_filterMap.1 hq
  rw [promise_of_waiting hqt]
  have hsorted := h.sorted
  rw [hchain] at hsorted
  exact (rel_of_pairwise_cons hsorted ht).promise_lt

theorem ChainOk.pop (h : ChainOk b decided waiting calls) (hchain : b.writeChain = task :: tail)
    {b' : Base} (hb : b'.writeChain = tail) (hpromises : b'.promises = b.promises)
    (hversion : b'.mutationVersion = b.mutationVersion) (hresolved : b'.resolved = b.resolved) :
    ChainOk b' false (tail.filterMap Task.waiting) calls := by
  have hsub {t : Task} (ht : t ∈ b'.writeChain) : t ∈ b.writeChain := by
    rw [hchain, ← hb]
    exact mem_cons_of_mem _ ht
  constructor
  · rw [if_neg Bool.false_ne_true, hb]
  · have hsorted := h.sorted
    rw [hchain] at hsorted
    rw [hb]
    exact hsorted.of_cons
  · rw [hpromises, hversion]
    exact fun t ht => h.bounded t (hsub ht)
  · exact fun t ht => h.valid t (hsub ht)
  · rw [hresolved]
    exact fun n hn t ht => h.resolved_le n hn t (hsub ht)
  · exact fun t ht => h.loads t (hsub ht)

theorem Good.finish (hcore : Core env b origin calls waiting done [] rest)
    (hchain : ChainOk b decided waiting calls) (htask : b.writeChain = task :: tail)
    (hdisk : DiskOk env ⟨b, origin, calls⟩ done) : Good env ⟨b.finish, origin, calls⟩ := by
  have hpop : ChainOk b.finish false (tail.filterMap Task.waiting) calls := by
    apply hchain.pop htask
    all_goals
      rw [Base.finish, htask]
      dsimp only
      split <;> rfl
  have hcurrent : b.finish.current = none := by
    rw [Base.finish, htask]
    dsimp only
    split <;> rfl
  have hcore' : Core env b.finish origin calls (tail.filterMap Task.waiting) done [] rest := by
    rw [Base.finish, htask]
    dsimp only
    split
    · next p version bytes hwork =>
      have hq : (⟨task.promise, p, version⟩ : Waiting) ∈ task.waiting := by
        rw [Task.waiting, hwork]
        rfl
      cases decided with
      | false =>
        rw [hchain.waiting_cons htask hq] at hcore
        exact hcore.decide.of_eq rfl rfl rfl rfl rfl rfl le_rfl rfl
      | true =>
        -- The barrier is gone already, and the others belong to later publications.
        have hwaiting : waiting = tail.filterMap Task.waiting := by
          rw [hchain.waiting_eq, if_pos rfl, htask, tail_cons]
        rw [← hwaiting]
        refine hcore.of_eq rfl rfl rfl rfl rfl rfl le_rfl ?_
        apply erase_of_not_mem
        change version ∉ b.publicationBarriers
        rw [hcore.barriers_eq]
        intro hm
        obtain ⟨r, hr, hv⟩ := mem_map.1 hm
        rw [hwaiting] at hr
        obtain ⟨t, ht, hrt⟩ := mem_filterMap.1 hr
        have hsorted := hchain.sorted
        rw [htask] at hsorted
        have hlt := (rel_of_pairwise_cons hsorted ht).version_lt _ hq r hrt
        exact absurd hv hlt.ne'
    · next hwork =>
      have hnone : task.waiting = none := by
        rw [Task.waiting]
        split
        · next p version bytes heq => exact absurd heq (hwork p version bytes)
        · rfl
      rw [← hchain.waiting_tail htask hnone]
      exact hcore.of_eq rfl rfl rfl rfl rfl rfl le_rfl rfl
  refine ⟨tail.filterMap Task.waiting, done, [], rest, ?_⟩
  constructor
  · exact hcore'
  · rw [Base.decided, hcurrent]
    exact hpop
  · intro stage hstage
    rw [hcurrent] at hstage
    cases hstage
  · exact fun _ => rfl
  · have hsame : b.finish.writable = b.writable ∧ b.finish.disk = b.disk ∧
        b.finish.durable = b.durable ∧ b.finish.published = b.published := by
      rw [Base.finish, htask]
      dsimp only
      split <;> exact ⟨rfl, rfl, rfl, rfl⟩
    obtain ⟨hw, hd, hdur, hpub⟩ := hsame
    constructor
    · dsimp only
      rw [hw, hd, hdur]
      exact hdisk.writable
    · dsimp only
      rw [hw, hd, hpub]
      exact hdisk.landed

theorem Inv.chain_at (inv : Inv env ⟨b, origin, calls⟩ waiting done flight rest)
    (h : b.decided = decided) : ChainOk b decided waiting calls :=
  h ▸ inv.chain

theorem Good.await (hcore : Core env b origin calls waiting done flight rest)
    (hchain : ChainOk b b.decided waiting calls) (hcur : b.current = some stage)
    (htask : b.writeChain = task :: tail) (hstage : StageOk env b task flight rest stage)
    (hdisk : DiskOk env ⟨b, origin, calls⟩ done) : Good env ⟨b, origin, calls⟩ := by
  refine ⟨waiting, done, flight, rest, hcore, hchain, ?_, ?_, hdisk⟩
  · intro stage' h
    obtain rfl := Option.some.inj (hcur.symm.trans h)
    exact ⟨task, tail, htask, hstage⟩
  · intro h
    cases hcur.symm.trans h

theorem DiskOk.of_writable (hw : b.writable = true) (hdisk : b.disk.load = some b.durable) :
    DiskOk env ⟨b, origin, calls⟩ done where
  writable := fun _ => hdisk
  landed := fun h => absurd (hw.symm.trans h) Bool.noConfusion

/-- A writable sync base while the task at the head runs and no row is on its way. -/
structure Ready (env : Env) (b : Base) (origin : BaseState) (calls : List Item)
    (waiting : List Waiting) (done rest : List Traced) (task : Task) (tail : List Task)
    (decided : Bool) : Prop where
  core : Core env b origin calls waiting done [] rest
  chain : ChainOk b decided waiting calls
  task : b.writeChain = task :: tail
  writable : b.writable = true
  disk : b.disk.load = some b.durable

theorem Ready.diskOk (h : Ready env b origin calls waiting done rest task tail decided) :
    DiskOk env ⟨b, origin, calls⟩ done :=
  DiskOk.of_writable h.writable h.disk

theorem Ready.finish (h : Ready env b origin calls waiting done rest task tail decided) :
    Good env ⟨b.finish, origin, calls⟩ :=
  Good.finish h.core h.chain h.task h.diskOk

theorem Ready.resolve (h : Ready env b origin calls waiting done rest task tail false)
    (hnone : task.waiting = none) (hflush : b.flushable = []) :
    Good env ⟨b.resolve, origin, calls⟩ := by
  obtain ⟨hcore, hchain, htask, hw, hdisk⟩ := h
  have hmem : task ∈ b.writeChain := htask ▸ mem_cons_self
  obtain ⟨done', rest', hcore'⟩ := hcore.resolveCheckpoint hchain.waiting_sorted hflush
    (hchain.promise_lt htask hnone) (hchain.bounded task hmem).1
  have hresolve : b.resolve = { b with resolved := task.promise :: b.resolved }.finish := by
    rw [Base.resolve, Base.finish, Base.finish, htask]
    dsimp only
    split <;> rfl
  rw [hresolve]
  have hchain' : ChainOk { b with resolved := task.promise :: b.resolved } false waiting calls := by
    refine { hchain with resolved_le := ?_ }
    intro n hn t ht
    rcases mem_cons.1 hn with rfl | hn
    · have hsorted := hchain.sorted
      rw [htask, pairwise_cons] at hsorted
      have ht' : t ∈ task :: tail := htask ▸ ht
      rcases mem_cons.1 ht' with rfl | ht'
      · exact le_rfl
      · exact (hsorted.1 t ht').promise_lt.le
    · exact hchain.resolved_le n hn t ht
  exact Good.finish hcore' hchain' htask (DiskOk.of_writable hw hdisk)

theorem publicationRows_valid (hp : p.entries.all fun row => validateOperation row.operation)
    (hm : validatePublicationMarker (publicationMarker env p)) :
    (publicationRows env p).all validateRow := by
  rw [publicationRows, all_append, all_map, Bool.and_eq_true]
  refine ⟨hp, ?_⟩
  rw [all_cons, all_nil, Bool.and_true]
  exact hm

theorem Ready.startPublication (h : Ready env b origin calls waiting done rest task tail false)
    (hok : AfterSnapshot.Ok env task (.publication p version)) (hflush : b.flushable = []) :
    Good env ⟨b.startPublication env p version, origin, calls⟩ := by
  obtain ⟨⟨bytes, hwork⟩, hmarker⟩ := hok
  have hq : (⟨task.promise, p, version⟩ : Waiting) ∈ task.waiting := by
    rw [Task.waiting, hwork]
    rfl
  rw [Base.startPublication]
  split
  · exact h.finish
  · next next hnext =>
    obtain ⟨hcore, hchain, htask, hw, hdisk⟩ := h
    -- The calls before the publication have no rows left: they are durable.
    obtain ⟨r, rest', rfl, hrows, -, hmem, hhead⟩ := hcore.split_flushable hchain.waiting_sorted
    obtain ⟨tail', rfl⟩ := hhead _ _ (hchain.waiting_cons htask hq)
    rw [hflush] at hrows
    have hsettled := hcore.settle hrows hmem
    have hvalid := hchain.valid task (htask ▸ mem_cons_self) _ hq
    exact Good.await (hsettled.of_eq rfl rfl rfl rfl rfl rfl le_rfl rfl)
      (hchain.of_eq rfl rfl rfl rfl) rfl htask
      ⟨rfl, hw, p, bytes, tail', hwork, rfl, hnext, publicationRows_valid hvalid hmarker, rfl⟩
      (DiskOk.of_writable hw hdisk)

theorem Ready.afterSnapshot {after} (h : Ready env b origin calls waiting done rest task tail false)
    (hok : after.Ok env task) (hflush : b.flushable = []) :
    Good env ⟨b.afterSnapshot env after, origin, calls⟩ := by
  cases after with
  | publication p version => exact h.startPublication hok hflush
  | done => exact h.resolve hok hflush

theorem Ready.snapshot {after} (h : Ready env b origin calls waiting done rest task tail false)
    (hok : after.Ok env task) :
    Good env ⟨{ b with current := some (.snapshot b.durable b.durableVersion after) }, origin,
      calls⟩ :=
  Good.await (h.core.of_eq rfl rfl rfl rfl rfl rfl le_rfl rfl) (h.chain.of_eq rfl rfl rfl rfl) rfl
    h.task ⟨rfl, rfl, hok, h.writable⟩ (DiskOk.of_writable h.writable h.disk)

theorem Ready.afterFlush {after} (h : Ready env b origin calls waiting done rest task tail after.decided)
    (hok : after.Ok env task) (hflush : b.flushable = []) :
    Good env ⟨b.afterFlush env after, origin, calls⟩ := by
  cases after with
  | alreadyApplied => exact h.finish
  | afterPublication => exact h.finish
  | beforePublication p version =>
    rw [Base.afterFlush]
    split_ifs
    · exact h.snapshot hok
    · exact h.startPublication hok hflush
  | checkpoint =>
    rw [Base.afterFlush]
    split_ifs
    · exact h.snapshot hok
    · exact h.resolve hok hflush
  | save => exact h.snapshot hok
  | snapshot version next =>
    have h' : Ready env { b with
        dirty := b.durableVersion ≠ version || !b.pendingOperations.isEmpty } origin calls waiting
        done rest task tail false :=
      ⟨h.core.of_eq rfl rfl rfl rfl rfl rfl le_rfl rfl, h.chain.of_eq rfl rfl rfl rfl, h.task,
        h.writable, h.disk⟩
    exact h'.afterSnapshot hok hflush

theorem Ready.flush {after : AfterFlush}
    (h : Ready env b origin calls waiting done rest task tail after.decided)
    (hok : after.Ok env task) : Good env ⟨b.flush env after, origin, calls⟩ := by
  rw [Base.flush]
  split
  · next hflush => exact h.afterFlush hok hflush
  · next row rs hflush =>
    obtain ⟨hcore, hchain, htask, hw, hdisk⟩ := h
    obtain ⟨r, rest', rfl, hrows, hdrop, hmem, -⟩ := hcore.split_flushable hchain.waiting_sorted
    rw [hflush] at hrows hdrop
    have hout := hcore.takeOff hmem
    rw [hdrop] at hout
    exact Good.await (hout.of_eq rfl rfl rfl rfl rfl rfl le_rfl rfl)
      (hchain.of_eq rfl rfl rfl rfl) rfl htask ⟨hrows, rfl, hok, hw⟩ (DiskOk.of_writable hw hdisk)

theorem mayFollow_of_applyRows {next} (h : applyRows state (publicationRows env p) = some next) :
    mayFollow state.data.lastAppliedPublication (publicationMarker env p) ∧
      next = applyPublication env state p := by
  rw [applyRows_publicationRows] at h
  split_ifs at h with hf
  exact ⟨hf, (Option.some.inj h).symm⟩

theorem Core.accept (h : Core env b origin calls (q :: waiting) done [] (q.traced :: rest))
    (hf : mayFollow b.durable.data.lastAppliedPublication (publicationMarker env q.p))
    (hlt : q.promise < b.promises) (hw : ∀ r ∈ waiting, q.promise < r.promise)
    (hb : b' = { b.removePublicationBarrier q.version with
      durable := applyPublication env b.durable q.p
      durableVersion := q.version
      visible := Base.applyPending (applyPublication env b.durable q.p) b.pendingOperations
      dirty := true
      published := q.promise :: b.published }) :
    Core env b' origin calls waiting (done ++ [q.traced]) [] rest := by
  subst hb
  have hacc := h.accepts hf
  have htrace : done ++ [q.traced] ++ ([] ++ rest) = done ++ ([] ++ q.traced :: rest) := by simp
  have hsorted := (pairwise_append.1 h.sorted).2.1
  rw [nil_append, pairwise_cons] at hsorted
  have hout : ∀ n p v, .publication n p v ∈ rest → n ∉ q.promise :: b.published := by
    intro n p v hm
    rw [mem_cons, not_or]
    have hgt : q.promise < n := (hsorted.1 _ hm).2 _ rfl _ rfl
    exact ⟨hgt.ne', h.unaccepted n p v (mem_cons_of_mem _ hm)⟩
  constructor
  · rw [htrace]
    exact h.calls_eq
  · intro accepted _ hcons
    rw [htrace] at hcons ⊢
    apply h.faithful accepted
    intro n p v hm hne
    have hn := hcons n p v hm fun r hr => hne r (mem_cons_of_mem _ hr)
    rw [hn]
    exact hacc.consistent [.publication n p v] waiting n p v mem_cons_self hne
  · exact hacc.effect_eq.symm
  · exact h.rest_rows
  · rw [effect_append, hacc.effect_eq, nil_append, effect_eq_applyPending hout, ← h.rest_rows]
    rfl
  · exact fun n p v hm => hout n p v hm
  · exact fun n hm => h.unresolved n (mem_cons_of_mem _ hm)
  · rw [htrace]
    exact h.sorted
  · rw [htrace]
    exact h.bounded
  · intro r hr
    rcases mem_cons.1 (h.waiting_mem r (mem_cons_of_mem _ hr)) with heq | hm
    · injection heq with hpromise _ _
      exact absurd hpromise (hw r hr).ne'
    · exact hm
  · exact h.decide.barriers_eq
  · intro n hn
    rcases mem_cons.1 hn with rfl | hn
    · exact hlt
    · exact h.settled_lt n hn
  · exact h.valid
  · exact hacc.rising

theorem DiskOk.of_landed (hw : b.writable = false) (landed : List Nat) (k : Nat)
    (hpub : b.published ⊆ landed) (hdone : done.length ≤ k) (hk : k ≤ calls.length)
    (hload : b.disk.load = some (replay env (· ∈ landed) origin (calls.take k)))
    (hrising : (sequencesFrom origin (· ∈ landed) (calls.take k)).Pairwise (· < ·)) :
    DiskOk env ⟨b, origin, calls⟩ done where
  writable := fun h => absurd (hw.symm.trans h) Bool.noConfusion
  landed := fun _ => ⟨landed, k, hpub, hdone, hk, hload, hrising⟩

theorem Core.take_calls (h : Core env b origin calls waiting done flight rest)
    (hpre : pre <+: done ++ (flight ++ rest)) :
    calls.take pre.length = pre.map Traced.item ∧ pre.length ≤ calls.length := by
  obtain ⟨suf, hsuf⟩ := hpre
  rw [h.calls_eq, ← hsuf, map_append, take_append_of_le_length (by simp),
    take_of_length_le (by simp)]
  exact ⟨rfl, by simp⟩

theorem DiskOk.of_durable (hcore : Core env b origin calls waiting done flight rest)
    (hdisk : b.disk.load = some b.durable) (hw : b'.writable = false)
    (hpub : b'.published = b.published) (hload : b'.disk.load = b.disk.load) :
    DiskOk env ⟨b', origin, calls⟩ done := by
  obtain ⟨htake, hle⟩ := hcore.take_calls (prefix_append done _)
  apply DiskOk.of_landed hw b.published done.length (hpub ▸ List.Subset.refl _) le_rfl hle
  · rw [hload, hdisk, hcore.durable_replay]
  · rw [htake]
    exact hcore.rising

theorem waiting_of_load (h : task.work = .load) : task.waiting = none := by
  rw [Task.waiting, h]

theorem Good.start (h : Good env w) : Good env (w.step env .start) := by
  obtain ⟨waiting, done, flight, rest, inv⟩ := h
  obtain ⟨b, origin, calls⟩ := w
  change Good env ⟨b.start env, origin, calls⟩
  rw [Base.start]
  split
  · next task tail hcur htask =>
    obtain rfl := inv.idle hcur
    have hcore := inv.core
    have hchain : ChainOk b false waiting calls := inv.chain_at (by rw [Base.decided, hcur])
    have hfinish : Good env ⟨b.finish, origin, calls⟩ :=
      Good.finish hcore hchain htask inv.disk
    have hready (hw : ¬(!b.writable) = true) :
        Ready env b origin calls waiting done rest task tail false :=
      have hw' : b.writable = true := by simpa using hw
      ⟨hcore, hchain, htask, hw', inv.disk.writable hw'⟩
    split
    · next hwork =>
      refine Good.await (hcore.of_eq rfl rfl rfl rfl rfl rfl le_rfl rfl)
        (hchain.of_eq rfl rfl rfl rfl) rfl htask ⟨rfl, hwork, rfl⟩ ?_
      cases hw : b.writable with
      | true => exact DiskOk.of_durable hcore (inv.disk.writable hw) rfl rfl rfl
      | false => exact ⟨nofun, fun _ => inv.disk.landed hw⟩
    · next p version bytes hwork =>
      split_ifs with hw
      · exact hfinish
      · have h := hready hw
        exact Good.await (hcore.of_eq rfl rfl rfl rfl rfl rfl le_rfl rfl)
          (hchain.of_eq rfl rfl rfl rfl) rfl htask ⟨rfl, ⟨bytes, hwork⟩, h.writable⟩
          (DiskOk.of_writable h.writable h.disk)
    · next hwork =>
      have hnone : task.waiting = none := by rw [Task.waiting, hwork]
      split_ifs with hw hpending
      · exact hfinish
      · have hflush : b.flushable = [] := by
          rw [Base.flushable, hpending]
          split <;> rfl
        exact (hready hw).resolve hnone hflush
      · exact (hready hw).flush hnone
    · next hwork =>
      have hnone : task.waiting = none := by rw [Task.waiting, hwork]
      split_ifs with hw hpending
      · exact hfinish
      · have hflush : b.flushable = [] := by
          rw [Base.flushable, hpending.2]
          split <;> rfl
        exact (hready hw).resolve hnone hflush
      · exact (hready hw).flush hnone
  · exact ⟨waiting, done, flight, rest, inv⟩

theorem Ready.digested (h : Ready env b origin calls waiting done rest task tail false)
    (hwork : ∃ bytes, task.work = .publication p version bytes) :
    Good env ⟨b.digested env p version, origin, calls⟩ := by
  have hq : (⟨task.promise, p, version⟩ : Waiting) ∈ task.waiting := by
    obtain ⟨bytes, hwork⟩ := hwork
    rw [Task.waiting, hwork]
    rfl
  have hbefore (hm : validatePublicationMarker (publicationMarker env p)) :
      Good env ⟨b.flush env (.beforePublication p version), origin, calls⟩ :=
    h.flush ⟨hwork, hm⟩
  have halready :
      Good env ⟨(b.removePublicationBarrier version).flush env .alreadyApplied, origin, calls⟩ := by
    obtain ⟨hcore, hchain, htask, hw, hdisk⟩ := h
    rw [hchain.waiting_cons htask hq] at hcore
    have hchain' : ChainOk (b.removePublicationBarrier version) true
        (tail.filterMap Task.waiting) calls := by
      refine { hchain with waiting_eq := ?_ }
      change _ = List.filterMap Task.waiting (if _ then b.writeChain.tail else _)
      rw [if_pos rfl, htask, tail_cons]
    refine Ready.flush ⟨hcore.decide, hchain', htask, hw, hdisk⟩ ?_
    change task.waiting ≠ none
    rw [Option.mem_def.1 hq]
    exact Option.some_ne_none _
  rw [Base.digested]
  split_ifs with hm
  · exact h.finish
  · have hm' : validatePublicationMarker (publicationMarker env p) := by simpa using hm
    split
    · exact hbefore hm'
    · next previous _ =>
      split_ifs
      · exact h.finish
      · exact h.finish
      · exact halready
      · exact h.finish
      · exact hbefore hm'

theorem rowsOf_valid (h : ∀ row ∈ operations, validateOperation row.operation) :
    (Base.rowsOf operations).all validateRow := by
  rw [Base.rowsOf, all_map, all_eq_true]
  exact h

theorem Good.committed {after next} (inv : Inv env ⟨b, origin, calls⟩ waiting done flight rest)
    (hcur : b.current = some (.commit operations next after)) (outcome : Outcome) :
    Good env ⟨b.resume env outcome, origin, calls⟩ := by
  obtain ⟨task, tail, htask, hstage⟩ := inv.stage _ hcur
  rw [StageOk] at hstage
  obtain ⟨hrows, rfl, hok, hw⟩ := hstage
  have hcore := inv.core
  have hchain : ChainOk b after.decided waiting calls := inv.chain_at (by rw [Base.decided, hcur])
  have hdisk := inv.disk.writable hw
  have hvalid : (Base.rowsOf operations).all validateRow := by
    apply rowsOf_valid
    intro row hrow
    apply hcore.valid
    rw [rows_append, hrows]
    exact mem_append_left _ hrow
  have hload : (b.disk.commit (Base.rowsOf operations)).load =
      some (Base.applyPending b.durable operations) := by
    rw [Disk.load_commit hdisk hvalid, applyRows_rowsOf]
  unfold Base.resume
  rw [hcur]
  cases outcome with
  | done segments =>
    have hsettled := hcore.settle (r := []) rfl hcore.waiting_mem
    rw [hrows] at hsettled
    exact Ready.flush ⟨hsettled.of_eq rfl rfl rfl rfl rfl rfl le_rfl rfl,
      hchain.of_eq rfl rfl rfl rfl, htask, hw, hload⟩ hok
  | failed landed =>
    have hback := hcore.bringBack
    rw [hrows] at hback
    refine Good.finish (hback.of_eq rfl rfl rfl rfl rfl rfl le_rfl rfl)
      (hchain.of_eq rfl rfl rfl rfl) htask ?_
    cases landed with
    | false => exact DiskOk.of_durable hcore hdisk rfl rfl rfl
    | true =>
      -- The rows in flight are on disk.
      have hpre : done ++ flight <+: done ++ (flight ++ rest) :=
        ⟨rest, append_assoc _ _ _⟩
      obtain ⟨htake, hle⟩ := hcore.take_calls hpre
      have hout : ∀ n p v, .publication n p v ∈ flight → n ∉ b.published :=
        fun n p v hm => hcore.unaccepted n p v (mem_append_left _ hm)
      refine DiskOk.of_landed rfl b.published (done ++ flight).length (List.Subset.refl _)
        (by simp) hle ?_ ?_
      · change (b.disk.commit (Base.rowsOf operations)).load = _
        rw [hload, htake, hcore.faithful _ consistent_published _ hpre, effect_append,
          ← hcore.durable_eq, effect_eq_applyPending hout, hrows]
      · rw [htake, map_append, sequencesFrom_append, sequences_eq_nil hout, append_nil]
        exact hcore.rising

theorem Good.publicationCommitted {next} (inv : Inv env ⟨b, origin, calls⟩ waiting done flight rest)
    (hcur : b.current = some (.publish rs next version)) (outcome : Outcome) :
    Good env ⟨b.resume env outcome, origin, calls⟩ := by
  obtain ⟨task, tail, htask, hstage⟩ := inv.stage _ hcur
  rw [StageOk] at hstage
  obtain ⟨rfl, hw, p, bytes, rest', hwork, rfl, hnext, hvalid, rfl⟩ := hstage
  have hcore := inv.core
  have hchain : ChainOk b false waiting calls := inv.chain_at (by rw [Base.decided, hcur])
  have hdisk := inv.disk.writable hw
  have hq : (⟨task.promise, p, version⟩ : Waiting) ∈ task.waiting := by
    rw [Task.waiting, hwork]
    rfl
  have hwaiting := hchain.waiting_cons htask hq
  obtain ⟨hf, rfl⟩ := mayFollow_of_applyRows hnext
  have hload : (b.disk.commit (publicationRows env p)).load =
      some (applyPublication env b.durable p) := by
    rw [Disk.load_commit hdisk hvalid, hnext]
  unfold Base.resume
  rw [hcur]
  cases outcome with
  | done segments =>
    have hsorted := hchain.waiting_sorted
    rw [hwaiting] at hcore hsorted
    have haccept := hcore.accept (q := ⟨task.promise, p, version⟩) hf
      (hchain.bounded task (htask ▸ mem_cons_self)).1 (pairwise_cons.1 hsorted).1 rfl
    dsimp only
    rw [Base.publicationDone]
    refine @Ready.flush _ _ _ _ (tail.filterMap Task.waiting) (done ++ [.publication task.promise p version])
      rest' task tail .afterPublication ⟨?_, ?_, htask, hw, hload⟩ ?_
    · refine haccept.of_eq ?_ rfl rfl rfl rfl rfl le_rfl rfl
      dsimp only
      rw [htask]
      rfl
    · refine { hchain with waiting_eq := ?_ }
      change _ = List.filterMap Task.waiting (if _ then b.writeChain.tail else _)
      rw [AfterFlush.decided, if_pos rfl, htask, tail_cons]
    · change task.waiting ≠ none
      rw [Option.mem_def.1 hq]
      exact Option.some_ne_none _
  | failed landed =>
    refine Good.finish (hcore.of_eq rfl rfl rfl rfl rfl rfl le_rfl rfl)
      (hchain.of_eq rfl rfl rfl rfl) htask ?_
    cases landed with
    | false => exact DiskOk.of_durable hcore hdisk rfl rfl rfl
    | true =>
      have hpre : done ++ [.publication task.promise p version] <+:
          done ++ ([] ++ .publication task.promise p version :: rest') :=
        ⟨rest', by simp⟩
      obtain ⟨htake, hle⟩ := hcore.take_calls hpre
      rw [hwaiting] at hcore
      have hacc := hcore.accepts (q := ⟨task.promise, p, version⟩) hf
      refine DiskOk.of_landed rfl (task.promise :: b.published) _ (subset_cons_self _ _)
        (by simp) hle ?_ ?_
      · change (b.disk.commit (publicationRows env p)).load = _
        rw [hload, htake, hcore.faithful _ (hacc.consistent _ _) _ hpre]
        exact congrArg some hacc.effect_eq.symm
      · rw [htake]
        exact hacc.rising

theorem Good.snapshotted {after} (inv : Inv env ⟨b, origin, calls⟩ waiting done flight rest)
    (hcur : b.current = some (.snapshot captured version after)) (outcome : Outcome) :
    Good env ⟨b.resume env outcome, origin, calls⟩ := by
  obtain ⟨task, tail, htask, hstage⟩ := inv.stage _ hcur
  rw [StageOk] at hstage
  obtain ⟨rfl, rfl, hok, hw⟩ := hstage
  have hcore := inv.core
  have hchain : ChainOk b false waiting calls := inv.chain_at (by rw [Base.decided, hcur])
  have hload : (⟨b.durable, []⟩ : Disk).load = some b.durable := rfl
  unfold Base.resume
  rw [hcur]
  cases outcome with
  | done segments =>
    exact Ready.flush ⟨hcore.of_eq rfl rfl rfl rfl rfl rfl le_rfl rfl,
      hchain.of_eq rfl rfl rfl rfl, htask, hw, hload⟩ hok
  | failed landed =>
    refine Good.finish (hcore.of_eq rfl rfl rfl rfl rfl rfl le_rfl rfl)
      (hchain.of_eq rfl rfl rfl rfl) htask ?_
    have hdisk := inv.disk.writable hw
    cases landed with
    | false => exact DiskOk.of_durable hcore hdisk rfl rfl rfl
    | true => exact DiskOk.of_durable hcore hdisk rfl rfl (hload.trans hdisk.symm)

theorem Core.waits {trace : List Traced} (hqueued : ∀ t ∈ trace, ∃ n, t = .queued n)
    (hsorted : trace.Pairwise Before) (hbounded : ∀ t ∈ trace, ∀ n ∈ t.promise, n < b.promises)
    (hdurable : b.durable = origin) (hvisible : b.visible = origin)
    (hpending : b.pendingOperations = []) (hbarriers : b.publicationBarriers = [])
    (hsettled : ∀ n ∈ b.published ++ b.resolved, n < b.promises)
    (hunresolved : ∀ n, .queued n ∈ trace → n ∉ b.resolved) :
    Core env b origin (trace.map Traced.item) [] [] [] trace := by
  have hrows : rows trace = [] := by
    rw [rows, filterMap_eq_nil_iff]
    intro t ht
    obtain ⟨n, rfl⟩ := hqueued t ht
    rfl
  have hnone : ∀ n p v, .publication n p v ∉ trace := by
    intro n p v hm
    obtain ⟨m, hm⟩ := hqueued _ hm
    cases hm
  have heffect (accepted : Nat → Prop) [DecidablePred accepted] {pre : List Traced}
      (hpre : pre <+: trace) :
      replay env accepted origin (pre.map Traced.item) = origin ∧
        effect env accepted origin pre = origin := by
    have hpre' : ∀ t ∈ pre, ∃ n, t = .queued n := fun t ht => hqueued t (hpre.subset ht)
    clear hpre
    induction pre with
    | nil => exact ⟨rfl, rfl⟩
    | cons t pre ih =>
      obtain ⟨n, rfl⟩ := hpre' t mem_cons_self
      exact ih fun t ht => hpre' t (mem_cons_of_mem _ ht)
  constructor
  · rfl
  · intro accepted _ _ pre hpre
    rw [(heffect accepted hpre).1, (heffect accepted hpre).2]
  · exact hdurable
  · rw [hrows, hpending]
  · rw [hvisible]
    exact (heffect _ (prefix_refl _)).2.symm
  · exact fun n p v hm => absurd hm (hnone n p v)
  · exact hunresolved
  · exact hsorted
  · intro t ht
    refine ⟨?_, hbounded t ht⟩
    obtain ⟨n, rfl⟩ := hqueued t ht
    exact nofun
  · exact nofun
  · exact hbarriers
  · exact hsettled
  · intro row hrow
    change row ∈ rows trace at hrow
    rw [hrows] at hrow
    cases hrow
  · rw [sequencesFrom, map_nil, sequences, filterMap_nil, append_nil]
    cases lastSequence origin with
    | none => exact List.Pairwise.nil
    | some s => exact pairwise_singleton _ _

theorem mem_behind {trace : List Traced} (hsorted : trace.Pairwise Before)
    (h : t ∈ (trace.dropWhile fun t => !t.item.isQueued n).drop 1) : ∀ m ∈ t.promise, n < m := by
  have hsuffix := dropWhile_suffix (l := trace) (fun t => !t.item.isQueued n)
  cases hdrop : trace.dropWhile fun t => !t.item.isQueued n with
  | nil =>
    rw [hdrop] at h
    cases h
  | cons mark tail =>
    rw [hdrop] at h hsuffix
    have hmark : mark.item.isQueued n = true := by
      have hne : trace.dropWhile (fun t => !t.item.isQueued n) ≠ [] := by
        rw [hdrop]
        exact cons_ne_nil _ _
      have hhead := head_dropWhile_not (fun t : Traced => !t.item.isQueued n) hne
      simpa [hdrop] using hhead
    have hpairs := hsorted.sublist hsuffix.sublist
    rw [pairwise_cons] at hpairs
    intro m hm
    apply (hpairs.1 t h).2 n _ m hm
    cases mark with
    | queued promise =>
      have hn : promise = n := of_decide_eq_true hmark
      rw [hn]
      rfl
    | silent call => cases hmark
    | recorded call row => cases hmark
    | publication promise p v => cases hmark

theorem Good.loaded (inv : Inv env ⟨b, origin, calls⟩ waiting done flight rest)
    (hcur : b.current = some .load) (htask : b.writeChain = task :: tail) {state : BaseState}
    (hload : b.disk.load = some state) (segments : Nat) :
    Good env ⟨(b.afterLoad state segments).finish, state, behind task.promise calls⟩ := by
  obtain ⟨task', tail', htask', hstage⟩ := inv.stage _ hcur
  rw [StageOk] at hstage
  obtain ⟨rfl, hwork, -⟩ := hstage
  obtain ⟨rfl, rfl⟩ := List.cons.inj (htask.symm.trans htask')
  have hcore := inv.core
  have hchain : ChainOk b false waiting calls := inv.chain_at (by rw [Base.decided, hcur])
  have hhead : task ∈ b.writeChain := htask ▸ mem_cons_self
  -- No publication is called while a load waits.
  have hnone : ∀ t ∈ b.writeChain, t.waiting = none := by
    have hsorted := hchain.sorted
    rw [htask, pairwise_cons] at hsorted
    rw [htask]
    intro t ht
    rcases mem_cons.1 ht with rfl | ht
    · exact waiting_of_load hwork
    · exact (hsorted.1 t ht).load_last hwork
  have hchain_nil : b.writeChain.filterMap Task.waiting = [] := filterMap_eq_nil_iff.2 hnone
  have hbarriers : b.publicationBarriers = [] := by
    rw [hcore.barriers_eq, hchain.waiting_eq, if_neg Bool.false_ne_true, hchain_nil]
    rfl
  have hbehind : behind task.promise calls =
      (((done ++ ([] ++ rest)).dropWhile fun t : Traced => !t.item.isQueued task.promise).drop 1).map
        Traced.item := by
    have hcalls : calls = (done ++ ([] ++ rest)).map Traced.item := hcore.calls_eq
    rw [behind, hcalls, dropWhile_map, map_drop]
    rfl
  generalize htrace : ((done ++ ([] ++ rest)).dropWhile
    fun t : Traced => !t.item.isQueued task.promise).drop 1 = trace at hbehind
  have hsub : trace <:+ done ++ ([] ++ rest) := by
    rw [← htrace]
    exact (drop_suffix _ _).trans (dropWhile_suffix _)
  have hqueued : ∀ t ∈ trace, ∃ n, t = .queued n := by
    intro t ht
    have hitem : t.item ∈ behind task.promise calls := hbehind ▸ mem_map_of_mem ht
    obtain ⟨n, hn⟩ := hchain.loads task hhead hwork _ hitem
    cases t with
    | queued promise => exact ⟨promise, rfl⟩
    | silent call => cases hn
    | recorded call row => cases hn
    | publication promise p v => cases hn
  have hcore' := (@Core.waits env) (b := b.afterLoad state segments) hqueued
    (hcore.sorted.sublist hsub.sublist) (fun t ht => (hcore.bounded t (hsub.subset ht)).2) rfl rfl rfl
    hbarriers hcore.settled_lt (by
      intro n hn hres
      have hle := hchain.resolved_le n hres task hhead
      have hlt := mem_behind hcore.sorted (htrace ▸ hn) n rfl
      exact absurd hlt hle.not_gt)
  have hchain' : ChainOk (b.afterLoad state segments) false [] (behind task.promise calls) := by
    constructor
    · exact hchain_nil.symm
    · exact hchain.sorted
    · intro t ht
      refine ⟨(hchain.bounded t ht).1, fun q hq => ?_⟩
      rw [hnone t ht] at hq
      cases hq
    · exact hchain.valid
    · exact hchain.resolved_le
    · intro t ht hload item hitem
      have hmem : item ∈ behind task.promise calls :=
        ((drop_suffix _ _).trans (dropWhile_suffix _)).subset hitem
      exact hchain.loads task hhead hwork item hmem
  rw [hbehind] at hchain' ⊢
  exact Good.finish hcore' hchain' htask (DiskOk.of_writable rfl hload)

theorem World.step_resume (w : World) (outcome : Outcome) (h : w.base.reloaded outcome = none) :
    w.step env (.resume outcome) = { w with base := w.base.resume env outcome } := by
  rw [World.step, h]

theorem reloaded_of_ne {s : Base} (h : s.current ≠ some .load) (outcome : Outcome) :
    s.reloaded outcome = none := by
  unfold Base.reloaded
  split
  · next hcur _ => exact absurd hcur h
  · rfl

theorem reloaded_failed (s : Base) (landed : Bool) : s.reloaded (.failed landed) = none := by
  unfold Base.reloaded
  split
  · next h _ => cases h
  · rfl

theorem Good.resume {w : World} (h : Good env w) (outcome : Outcome) :
    Good env (w.step env (.resume outcome)) := by
  obtain ⟨waiting, done, flight, rest, inv⟩ := h
  obtain ⟨b, origin, calls⟩ := w
  cases hcur : b.current with
  | none =>
    have hstep : b.resume env outcome = b := by
      unfold Base.resume
      rw [hcur]
    rw [World.step_resume _ _ (reloaded_of_ne (hcur ▸ nofun) outcome), hstep]
    exact ⟨waiting, done, flight, rest, inv⟩
  | some stage =>
    obtain ⟨task, tail, htask, hstage⟩ := inv.stage _ hcur
    cases stage with
    | load =>
      rw [StageOk] at hstage
      obtain ⟨rfl, -, -⟩ := hstage
      have hfailed : Good env ⟨b.finish, origin, calls⟩ :=
        Good.finish inv.core inv.chain htask inv.disk
      cases outcome with
      | done segments =>
        have hreloaded : b.reloaded (.done segments) =
            b.disk.load.map fun state => (task.promise, state) := by
          unfold Base.reloaded
          rw [hcur, show b.writeChain = task :: tail from htask]
        cases hload : b.disk.load with
        | some state =>
          have hstep : b.resume env (.done segments) = (b.afterLoad state segments).finish := by
            unfold Base.resume
            rw [hcur]
            dsimp only
            rw [hload]
          rw [World.step, hreloaded, hload, Option.map_some, hstep]
          exact Good.loaded inv hcur htask hload segments
        | none =>
          have hstep : b.resume env (.done segments) = b.finish := by
            unfold Base.resume
            rw [hcur]
            dsimp only
            rw [hload]
          rw [World.step_resume _ _ (by rw [hreloaded, hload, Option.map_none]), hstep]
          exact hfailed
      | failed landed =>
        have hstep : b.resume env (.failed landed) = b.finish := by
          unfold Base.resume
          rw [hcur]
        rw [World.step_resume _ _ (reloaded_failed b landed), hstep]
        exact hfailed
    | digest p version =>
      rw [StageOk] at hstage
      obtain ⟨rfl, hwork, hw⟩ := hstage
      have hchain : ChainOk b false waiting calls := inv.chain_at (by rw [Base.decided, hcur])
      rw [World.step_resume _ _ (reloaded_of_ne (hcur ▸ nofun) outcome)]
      cases outcome with
      | done segments =>
        have hstep : b.resume env (.done segments) = b.digested env p version := by
          unfold Base.resume
          rw [hcur]
        rw [hstep]
        exact Ready.digested ⟨inv.core, hchain, htask, hw, inv.disk.writable hw⟩ hwork
      | failed landed =>
        have hstep : b.resume env (.failed landed) = b.finish := by
          unfold Base.resume
          rw [hcur]
        rw [hstep]
        exact Good.finish inv.core inv.chain htask inv.disk
    | commit operations next after =>
      rw [World.step_resume _ _ (reloaded_of_ne (hcur ▸ nofun) outcome)]
      exact Good.committed inv hcur outcome
    | snapshot captured version after =>
      rw [World.step_resume _ _ (reloaded_of_ne (hcur ▸ nofun) outcome)]
      exact Good.snapshotted inv hcur outcome
    | publish rs next version =>
      rw [World.step_resume _ _ (reloaded_of_ne (hcur ▸ nofun) outcome)]
      exact Good.publicationCommitted inv hcur outcome

end

end Obsetync.SyncBase
