import Obsetync.SyncBase.Calls

/-! A sync base that is only written to by mutators, checkpoints and saves. -/

namespace Obsetync.SyncBase
open List

section
variable {env : Env}

namespace Base

theorem finish_suffix (s : Base) : s.finish.writeChain <:+ s.writeChain := by
  rw [finish]
  split
  · next h => exact suffix_refl _
  · next task chain h =>
    rw [h]
    dsimp only
    split <;> exact suffix_cons _ _

theorem startPublication_suffix (s : Base) (p : RootBasePublication) (version : Nat) :
    (s.startPublication env p version).writeChain <:+ s.writeChain := by
  rw [startPublication]
  split
  · exact s.finish_suffix
  · exact suffix_refl _

theorem afterSnapshot_suffix (s : Base) (after : AfterSnapshot) :
    (s.afterSnapshot env after).writeChain <:+ s.writeChain := by
  cases after with
  | publication p version => exact s.startPublication_suffix p version
  | done => exact s.finish_suffix

theorem afterFlush_suffix (s : Base) (after : AfterFlush) :
    (s.afterFlush env after).writeChain <:+ s.writeChain := by
  cases after with
  | alreadyApplied => exact s.finish_suffix
  | afterPublication => exact s.finish_suffix
  | beforePublication p version =>
    rw [afterFlush]
    split_ifs
    · exact suffix_refl _
    · exact s.startPublication_suffix p version
  | checkpoint =>
    rw [afterFlush]
    split_ifs
    · exact suffix_refl _
    · exact s.finish_suffix
  | save => exact suffix_refl _
  | snapshot version next => exact afterSnapshot_suffix _ next

theorem flush_suffix (s : Base) (after : AfterFlush) :
    (s.flush env after).writeChain <:+ s.writeChain := by
  rw [flush]
  split
  · exact s.afterFlush_suffix after
  · exact suffix_refl _

theorem start_suffix (s : Base) : (s.start env).writeChain <:+ s.writeChain := by
  unfold start
  split
  · split
    · exact suffix_refl _
    · split_ifs
      · exact s.finish_suffix
      · exact suffix_refl _
    · split_ifs
      · exact s.finish_suffix
      · exact s.finish_suffix
      · exact s.flush_suffix _
    · split_ifs
      · exact s.finish_suffix
      · exact s.finish_suffix
      · exact s.flush_suffix _
  · exact suffix_refl _

theorem digested_suffix (s : Base) (p : RootBasePublication) (version : Nat) :
    (s.digested env p version).writeChain <:+ s.writeChain := by
  unfold digested
  dsimp only
  split_ifs
  · exact s.finish_suffix
  · split
    · exact s.flush_suffix _
    · split_ifs
      · exact s.finish_suffix
      · exact s.finish_suffix
      · exact flush_suffix _ _
      · exact s.finish_suffix
      · exact s.flush_suffix _

theorem resume_suffix (s : Base) (outcome : Outcome) :
    (s.resume env outcome).writeChain <:+ s.writeChain := by
  unfold resume
  split
  · exact suffix_refl _
  · split
    · exact s.finish_suffix
    · exact finish_suffix _
  · exact s.finish_suffix
  · exact s.digested_suffix _ _
  · exact s.finish_suffix
  · exact flush_suffix _ _
  · exact finish_suffix _
  · exact flush_suffix _ _
  · exact finish_suffix _
  · exact flush_suffix _ _
  · exact finish_suffix _

end Base

def settled (env : Env) (state : BaseState) (calls : List Item) : BaseState :=
  replay env (fun _ => False) state calls

def Item.isPublication : Item → Bool
  | .publication _ _ => true
  | _ => false

theorem replay_eq_settled [DecidablePred accepted] (h : ∀ item ∈ calls, item.isPublication = false)
    (state : BaseState) : replay env accepted state calls = settled env state calls := by
  induction calls generalizing state with
  | nil => rfl
  | cons item calls ih =>
    have hrest := ih fun x hx => h x (mem_cons_of_mem _ hx)
    cases item with
    | setter call => exact hrest _
    | queued promise => exact hrest _
    | publication promise p => cases h _ mem_cons_self

@[simp] theorem settled_setter :
    settled env state (calls ++ [.setter call]) = call.apply env (settled env state calls) :=
  replay_append state calls [.setter call]

@[simp] theorem settled_queued :
    settled env state (calls ++ [.queued promise]) = settled env state calls :=
  replay_append state calls [.queued promise]

structure Single (env : Env) (w : World) : Prop where
  good : Good env w
  writes : ∀ task ∈ w.base.writeChain, task.work = .checkpoint ∨ task.work = .save
  unpublished : ∀ item ∈ w.calls, item.isPublication = false

theorem Single.loaded (h : disk.load = some state) (walSegments : Nat) :
    Single env (World.loaded disk state walSegments) :=
  ⟨Good.init h walSegments, nofun, nofun⟩

section
variable {w : World}

theorem Single.settledLoad (h : Single env w) : w.base.settledLoad := by
  intro task htask hload
  rcases h.writes task htask with hwork | hwork <;> cases hload.symm.trans hwork

theorem Single.not_waiting (h : Single env w) (htask : task ∈ w.base.writeChain) :
    task.waiting = none := by
  rw [Task.waiting]
  rcases h.writes task htask with hwork | hwork <;> rw [hwork]

theorem Single.barriers (h : Single env w) : w.base.publicationBarriers = [] := by
  obtain ⟨waiting, done, flight, rest, inv⟩ := h.good
  rw [inv.core.barriers_eq, inv.chain.waiting_eq, map_eq_nil_iff, filterMap_eq_nil_iff]
  intro task htask
  apply h.not_waiting
  split_ifs at htask
  · exact mem_of_mem_tail htask
  · exact htask

theorem Single.queuedPaths (h : Single env w) : w.base.queuedPaths = [] := by
  rw [Base.queuedPaths, flatMap_eq_nil_iff]
  intro task htask
  rcases h.writes task htask with hwork | hwork <;> rw [hwork]

theorem Single.careful (h : Single env w) (call : Setter) : Careful w.base (.setter call) := by
  cases call with
  | setVerifiedBaseRequired required => exact ⟨h.settledLoad, fun _ => h.barriers⟩
  | refreshLocalMetadata path mtime size =>
    refine ⟨h.settledLoad, ?_⟩
    rw [h.queuedPaths]
    exact not_mem_nil
  | _ => exact h.settledLoad

theorem Single.visible_eq (h : Single env w) : w.base.visible = settled env w.origin w.calls := by
  obtain ⟨waiting, done, flight, rest, inv⟩ := h.good
  rw [inv.core.visible_replay, replay_eq_settled h.unpublished]

theorem Single.disk_load (h : Single env w) :
    ∃ k, w.base.disk.load = some (settled env w.origin (w.calls.take k)) := by
  obtain ⟨waiting, done, flight, rest, inv⟩ := h.good
  have htake (k : Nat) : ∀ item ∈ w.calls.take k, item.isPublication = false :=
    fun item hitem => h.unpublished item (mem_of_mem_take hitem)
  by_cases hw : w.base.writable = true
  · refine ⟨done.length, ?_⟩
    rw [inv.disk.writable hw, inv.core.durable_replay, replay_eq_settled (htake _)]
  · obtain ⟨landed, k, -, -, -, hload, -⟩ := inv.disk.landed (eq_false_of_ne_true hw)
    exact ⟨k, by rw [hload, replay_eq_settled (htake _)]⟩

theorem setter_writeChain {b b' : Base} (h : b.setter env call = some b') :
    b'.writeChain = b.writeChain := by
  rw [Base.setter] at h
  split_ifs at h
  split at h
  · cases h
    rfl
  · obtain ⟨s, hrecord, rfl⟩ := Option.map_eq_some_iff.1 h
    obtain ⟨-, rfl⟩ := record_eq_some hrecord
    rfl

theorem Single.setter (h : Single env w) {call : Setter} (hb : w.base.setter env call = some b) :
    Single env (w.step env (.setter call)) ∧
      w.step env (.setter call) = ⟨b, w.origin, w.calls ++ [.setter call]⟩ := by
  have hstep : w.step env (.setter call) = ⟨b, w.origin, w.calls ++ [.setter call]⟩ := by
    rw [World.step, hb]
  refine ⟨⟨h.good.setter (h.careful call), ?_, ?_⟩, hstep⟩
  · rw [hstep]
    dsimp only
    rw [setter_writeChain hb]
    exact h.writes
  · rw [hstep]
    intro item hitem
    rcases mem_append.1 hitem with hold | hnew
    · exact h.unpublished item hold
    · rw [mem_singleton.1 hnew]
      rfl

theorem Single.enqueue (h : Single env w) (hwork : work = .checkpoint ∨ work = .save) :
    Single env (w.enqueue work) := by
  refine ⟨h.good.enqueue ?_, ?_, ?_⟩
  · intro n
    rcases hwork with rfl | rfl <;> rfl
  · intro task htask
    rcases mem_append.1 htask with hold | hnew
    · exact h.writes task hold
    · rw [mem_singleton.1 hnew]
      exact hwork
  · intro item hitem
    rcases mem_append.1 hitem with hold | hnew
    · exact h.unpublished item hold
    · rw [mem_singleton.1 hnew]
      rfl

theorem Single.start (h : Single env w) : Single env (w.step env .start) :=
  ⟨h.good.start, fun task htask => h.writes task (w.base.start_suffix.subset htask), h.unpublished⟩

theorem Single.reloaded (h : Single env w) (outcome : Outcome) : w.base.reloaded outcome = none := by
  obtain ⟨waiting, done, flight, rest, inv⟩ := h.good
  unfold Base.reloaded
  split
  · next hcur _ =>
    obtain ⟨task, tail, hchain, -, hwork, -⟩ := inv.stage _ hcur
    exact absurd hwork (h.settledLoad task (hchain ▸ mem_cons_self))
  · rfl

theorem Single.resume (h : Single env w) (outcome : Outcome) :
    Single env (w.step env (.resume outcome)) ∧
      w.step env (.resume outcome) = { w with base := w.base.resume env outcome } := by
  have hstep : w.step env (.resume outcome) = { w with base := w.base.resume env outcome } := by
    rw [World.step, h.reloaded outcome]
  refine ⟨⟨h.good.step trivial, ?_, ?_⟩, hstep⟩
  · rw [hstep]
    exact fun task htask => h.writes task ((w.base.resume_suffix outcome).subset htask)
  · rw [hstep]
    exact h.unpublished

end

end

end Obsetync.SyncBase
