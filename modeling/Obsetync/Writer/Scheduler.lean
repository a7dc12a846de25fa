import Obsetync.RoundRobin
import Obsetync.Writer.Queue

namespace Obsetync.Writer
open List

def maxControlBurst : Nat := 8

/-- 25 milliseconds, in nanoseconds. -/
def bulkAging : Nat := 25000000

structure Scheduled (α : Type) where
  enqueuedAt : Nat
  value : α
  deriving DecidableEq, Repr

structure OwnerQueues (α : Type) where
  control : List (Scheduled α) := []
  bulk : List (Scheduled α) := []
  deriving DecidableEq, Repr

structure FairScheduler (α : Type) where
  owners : List (WriterOwner × OwnerQueues α) := []
  controlOrder : List WriterOwner := []
  bulkOrder : List WriterOwner := []
  controlBurst : Nat := 0
  len : Nat := 0
  deriving DecidableEq, Repr

/-- A popped message with the queue it was taken from. -/
structure Popped (α : Type) where
  owner : WriterOwner
  writerClass : WriterClass
  value : α
  deriving DecidableEq, Repr

variable {α : Type}

def OwnerQueues.queue (queues : OwnerQueues α) : WriterClass → List (Scheduled α)
  | .control => queues.control
  | .bulk => queues.bulk

def OwnerQueues.setQueue (queues : OwnerQueues α) (queue : List (Scheduled α)) : WriterClass → OwnerQueues α
  | .control => { queues with control := queue }
  | .bulk => { queues with bulk := queue }

namespace FairScheduler

def order (s : FairScheduler α) : WriterClass → List WriterOwner
  | .control => s.controlOrder
  | .bulk => s.bulkOrder

def setOrder (s : FairScheduler α) (order : List WriterOwner) : WriterClass → FairScheduler α
  | .control => { s with controlOrder := order }
  | .bulk => { s with bulkOrder := order }

def push (s : FairScheduler α) (owner : WriterOwner) (c : WriterClass) (enqueuedAt : Nat) (value : α) :
    FairScheduler α :=
  let queues := (Assoc.find s.owners owner).getD {}
  let queue := queues.queue c
  let s := if queue.isEmpty then s.setOrder (s.order c ++ [owner]) c else s
  { s with
    owners := Assoc.set s.owners owner (queues.setQueue (queue ++ [⟨enqueuedAt, value⟩]) c)
    len := s.len + 1 }

def bulkIsAged (s : FairScheduler α) (now : Nat) : Bool :=
  s.bulkOrder.any fun owner =>
    ((Assoc.find s.owners owner).bind fun queues => queues.bulk.head?).any fun item =>
      bulkAging ≤ now - item.enqueuedAt

def bulkShouldRun (s : FairScheduler α) (now : Nat) : Bool :=
  !s.bulkOrder.isEmpty && (maxControlBurst ≤ s.controlBurst || (0 < s.controlBurst && s.bulkIsAged now))

/-- `none` is the `None` of an empty rotation; the `expect`s and the underflow are panics. -/
def popClass (s : FairScheduler α) (c : WriterClass) : Except Fault (Option (Popped α × FairScheduler α)) :=
  match s.order c with
  | [] => .ok none
  | owner :: rest =>
    match Assoc.find s.owners owner with
    | none => .error .panic
    | some queues =>
      match queues.queue c with
      | [] => .error .panic
      | scheduled :: queue =>
        let queues := queues.setQueue queue c
        let s := s.setOrder (rest ++ if queue.isEmpty then [] else [owner]) c
        let owners := if queues.control.isEmpty && queues.bulk.isEmpty then Assoc.erase s.owners owner
          else Assoc.set s.owners owner queues
        if s.len = 0 then .error .panic
        else .ok (some (⟨owner, c, scheduled.value⟩, { s with owners, len := s.len - 1 }))

def popSelected (s : FairScheduler α) (c : WriterClass) :
    Except Fault (Option (Popped α × FairScheduler α)) := do
  match ← s.popClass c with
  | none => return none
  | some (popped, s) =>
    match c with
    | .control => return some (popped, { s with controlBurst := min (s.controlBurst + 1) (2 ^ 64 - 1) })
    | .bulk => return some (popped, { s with controlBurst := 0 })

def pop (s : FairScheduler α) (now : Nat) : Except Fault (Option (Popped α × FairScheduler α)) :=
  match !s.controlOrder.isEmpty, !s.bulkOrder.isEmpty with
  | false, false => .ok none
  | true, false => s.popSelected .control
  | false, true => s.popSelected .bulk
  | true, true => if s.bulkShouldRun now then s.popSelected .bulk else s.popSelected .control

def popControlForGroup (s : FairScheduler α) (now : Nat) : Except Fault (Option (Popped α × FairScheduler α)) :=
  if s.controlOrder.isEmpty || s.bulkShouldRun now then .ok none else s.popSelected .control

end FairScheduler

/-- What the writer's loop asks of the scheduler. -/
inductive Call (α : Type) where
  | push (owner : WriterOwner) (c : WriterClass) (enqueuedAt : Nat) (value : α)
  | pop (now : Nat)
  | popControlForGroup (now : Nat)

inductive Action (α : Type) where
  | pushed (owner : WriterOwner) (c : WriterClass) (value : α)
  | popped (p : Popped α)
  deriving DecidableEq, Repr

def afterPop (s : FairScheduler α) : Option (Popped α × FairScheduler α) → FairScheduler α × List (Action α)
  | none => (s, [])
  | some (p, s') => (s', [.popped p])

def FairScheduler.step (s : FairScheduler α) : Call α → Except Fault (FairScheduler α × List (Action α))
  | .push owner c enqueuedAt value => .ok (s.push owner c enqueuedAt value, [.pushed owner c value])
  | .pop now => (s.pop now).map (afterPop s)
  | .popControlForGroup now => (s.popControlForGroup now).map (afterPop s)

def FairScheduler.run (s : FairScheduler α) : List (Call α) → Except Fault (FairScheduler α × List (Action α))
  | [] => .ok (s, [])
  | call :: calls => do
    let (s, actions) ← s.step call
    let (s, log) ← s.run calls
    return (s, actions ++ log)

namespace FairScheduler

def queueOf (s : FairScheduler α) (owner : WriterOwner) (c : WriterClass) : List (Scheduled α) :=
  ((Assoc.find s.owners owner).getD {}).queue c

/-- An owner is in the rotation of a class once while it has messages there. -/
structure Sound (s : FairScheduler α) : Prop where
  distinct : (s.owners.map Prod.fst).Nodup
  nodup : ∀ c, (s.order c).Nodup
  mem_order : ∀ c owner, owner ∈ s.order c ↔ s.queueOf owner c ≠ []
  len : s.len = (s.owners.map fun entry => entry.2.control.length + entry.2.bulk.length).sum

variable {s s' : FairScheduler α} {owner o : WriterOwner} {c c' : WriterClass} {t : Nat} {v : α}

@[simp] theorem order_setOrder (order : List WriterOwner) :
    (s.setOrder order c).order c' = if c' = c then order else s.order c' := by
  cases c <;> cases c' <;> rfl

@[simp] theorem owners_setOrder (order : List WriterOwner) : (s.setOrder order c).owners = s.owners := by
  cases c <;> rfl

@[simp] theorem len_setOrder (order : List WriterOwner) : (s.setOrder order c).len = s.len := by
  cases c <;> rfl

@[simp] theorem controlBurst_setOrder (order : List WriterOwner) :
    (s.setOrder order c).controlBurst = s.controlBurst := by
  cases c <;> rfl

theorem queue_setQueue (queues : OwnerQueues α) (queue : List (Scheduled α)) :
    (queues.setQueue queue c).queue c' = if c' = c then queue else queues.queue c' := by
  cases c <;> cases c' <;> rfl

theorem length_setQueue (queues : OwnerQueues α) (queue : List (Scheduled α)) :
    (queues.setQueue queue c).control.length + (queues.setQueue queue c).bulk.length + (queues.queue c).length =
      queues.control.length + queues.bulk.length + queue.length := by
  cases c <;> simp only [OwnerQueues.setQueue, OwnerQueues.queue] <;> omega

theorem sound_empty : Sound ({} : FairScheduler α) where
  distinct := nodup_nil
  nodup c := by cases c <;> exact nodup_nil
  mem_order c owner := by cases c <;> exact iff_of_false not_mem_nil fun h => h rfl
  len := rfl

theorem sum_lengths (h : Sound s) (owner : WriterOwner) : s.len =
    ((Assoc.find s.owners owner).getD {}).control.length + ((Assoc.find s.owners owner).getD {}).bulk.length +
      ((Assoc.erase s.owners owner).map fun entry => entry.2.control.length + entry.2.bulk.length).sum := by
  rw [h.len, Assoc.sum_erase h.distinct (fun queues => queues.control.length + queues.bulk.length) owner]
  cases Assoc.find s.owners owner <;> rfl

structure Pushed (s s' : FairScheduler α) (owner : WriterOwner) (c : WriterClass) (t : Nat) (v : α) : Prop where
  queue : s'.queueOf owner c = s.queueOf owner c ++ [⟨t, v⟩]
  other : ∀ o c', ¬ (o = owner ∧ c' = c) → s'.queueOf o c' = s.queueOf o c'
  order : s'.order c = if s.queueOf owner c = [] then s.order c ++ [owner] else s.order c
  order_other : ∀ c', c' ≠ c → s'.order c' = s.order c'
  burst : s'.controlBurst = s.controlBurst

theorem pushed_push : Pushed s (s.push owner c t v) owner c t v := by
  have howners : (s.push owner c t v).owners = Assoc.set s.owners owner
      (((Assoc.find s.owners owner).getD {}).setQueue (s.queueOf owner c ++ [⟨t, v⟩]) c) := by
    unfold push queueOf
    dsimp only
    split_ifs
    · rw [owners_setOrder]
    · rfl
  have horder : ∀ c', (s.push owner c t v).order c' =
      if c' = c ∧ s.queueOf owner c = [] then s.order c ++ [owner] else s.order c' := by
    intro c'
    have hempty : (((Assoc.find s.owners owner).getD {}).queue c).isEmpty = true ↔ s.queueOf owner c = [] :=
      List.isEmpty_iff
    have hkeep : ∀ (x : FairScheduler α) (owners : List (WriterOwner × OwnerQueues α)) (len : Nat),
        order { x with owners, len } c' = x.order c' := by
      intro x owners len
      cases c' <;> rfl
    unfold push
    dsimp only
    rw [hkeep]
    by_cases hq : s.queueOf owner c = []
    · rw [if_pos (hempty.2 hq), order_setOrder]
      simp only [hq, and_true]
    · rw [if_neg (mt hempty.1 hq), if_neg fun hand => hq hand.2]
  refine ⟨?_, fun o c' hne => ?_, ?_, fun c' hne => ?_, ?_⟩
  · rw [queueOf, howners, Assoc.find_set, if_pos rfl, Option.getD_some, queue_setQueue, if_pos rfl]
  · rw [queueOf, howners, Assoc.find_set]
    by_cases ho : o = owner
    · subst ho
      rw [if_pos rfl, Option.getD_some, queue_setQueue, if_neg fun hc => hne ⟨rfl, hc⟩]
      rfl
    · rw [if_neg ho]
      rfl
  · rw [horder]
    simp only [true_and]
  · rw [horder, if_neg fun hand => hne hand.1]
  · unfold push
    dsimp only
    split_ifs
    · exact controlBurst_setOrder _
    · rfl

theorem Sound.push (h : Sound s) : Sound (s.push owner c t v) := by
  have hp : Pushed s (s.push owner c t v) owner c t v := pushed_push
  have howner := h.mem_order c owner
  refine ⟨?_, fun c' => ?_, fun c' o => ?_, ?_⟩
  · unfold FairScheduler.push
    dsimp only
    split_ifs
    · rw [owners_setOrder]
      exact Assoc.nodup_set h.distinct
    · exact Assoc.nodup_set h.distinct
  · by_cases hc : c' = c
    · subst hc
      rw [hp.order]
      split_ifs with hq
      · refine RoundRobin.Step.nodup (.join ?_) (h.nodup c')
        exact fun hmem => howner.1 hmem hq
      · exact h.nodup c'
    · rw [hp.order_other c' hc]
      exact h.nodup c'
  · by_cases hc : c' = c
    · subst hc
      by_cases ho : o = owner
      · subst ho
        rw [hp.queue, hp.order]
        refine iff_of_true ?_ (by simp)
        split_ifs with hq
        · exact mem_append_right _ (mem_singleton_self o)
        · exact howner.2 hq
      · rw [hp.other o c' fun hand => ho hand.1, ← h.mem_order, hp.order]
        split_ifs
        · rw [mem_append, mem_singleton]
          exact or_iff_left ho
        · rfl
    · rw [hp.other o c' fun hand => hc hand.2, hp.order_other c' hc]
      exact h.mem_order c' o
  · have hsum := sum_lengths h owner
    have hlen := length_setQueue (c := c) ((Assoc.find s.owners owner).getD {})
      (s.queueOf owner c ++ [⟨t, v⟩])
    rw [length_append, length_singleton] at hlen
    unfold FairScheduler.push queueOf at *
    dsimp only
    have hgoal : s.len + 1 = ((Assoc.set s.owners owner (((Assoc.find s.owners owner).getD {}).setQueue
        (((Assoc.find s.owners owner).getD {}).queue c ++ [⟨t, v⟩]) c)).map
          fun entry => entry.2.control.length + entry.2.bulk.length).sum := by
      rw [Assoc.set, map_cons, sum_cons]
      dsimp only
      omega
    split_ifs
    · rw [len_setOrder, owners_setOrder]
      exact hgoal
    · exact hgoal

/-- What the pop of the first owner of a rotation does. -/
structure Taken (s s' : FairScheduler α) (owner : WriterOwner) (c : WriterClass) (item : Scheduled α)
    (queue : List (Scheduled α)) (rest : List WriterOwner) : Prop where
  first : s.order c = owner :: rest
  queue_before : s.queueOf owner c = item :: queue
  queue_after : s'.queueOf owner c = queue
  other : ∀ o c', ¬ (o = owner ∧ c' = c) → s'.queueOf o c' = s.queueOf o c'
  order : s'.order c = rest ++ if queue.isEmpty then [] else [owner]
  order_other : ∀ c', c' ≠ c → s'.order c' = s.order c'

theorem Taken.step (h : Taken s s' owner c item queue rest) :
    RoundRobin.Step (s.order c) (.serve owner (!queue.isEmpty)) (s'.order c) := by
  rw [h.first, h.order]
  cases queue with
  | nil => exact .serve owner rest false
  | cons item queue => exact .serve owner rest true

theorem Taken.nodup (h : Taken s s' owner c item queue rest) (hs : Sound s) (c' : WriterClass) :
    (s'.order c').Nodup := by
  by_cases hc : c' = c
  · subst hc
    exact h.step.nodup (hs.nodup c')
  · rw [h.order_other c' hc]
    exact hs.nodup c'

theorem Taken.mem_order (h : Taken s s' owner c item queue rest) (hs : Sound s) (c' : WriterClass)
    (o : WriterOwner) : o ∈ s'.order c' ↔ s'.queueOf o c' ≠ [] := by
  by_cases hc : c' = c
  · subst hc
    have hnd := hs.nodup c'
    rw [h.first, nodup_cons] at hnd
    rw [h.order, mem_append]
    by_cases ho : o = owner
    · subst ho
      rw [h.queue_after, or_iff_right hnd.1]
      cases queue <;> simp
    · have hmem := hs.mem_order c' o
      rw [h.first, mem_cons, or_iff_right ho] at hmem
      rw [h.other o c' fun hand => ho hand.1, ← hmem]
      refine or_iff_left ?_
      cases queue <;> simp [ho]
  · rw [h.order_other c' hc, h.other o c' fun hand => hc hand.2]
    exact hs.mem_order c' o

def left (owners : List (WriterOwner × OwnerQueues α)) (owner : WriterOwner) (queues : OwnerQueues α) :
    List (WriterOwner × OwnerQueues α) :=
  if queues.control.isEmpty && queues.bulk.isEmpty then Assoc.erase owners owner
  else Assoc.set owners owner queues

theorem find_left {owners : List (WriterOwner × OwnerQueues α)} :
    ((Assoc.find (left owners owner queues) o).getD {}).queue c =
      if o = owner then queues.queue c else ((Assoc.find owners o).getD {}).queue c := by
  unfold left
  by_cases hempty : (queues.control.isEmpty && queues.bulk.isEmpty) = true
  · rw [if_pos hempty, Assoc.find_erase]
    by_cases ho : o = owner
    · rw [Bool.and_eq_true, List.isEmpty_iff, List.isEmpty_iff] at hempty
      rw [if_pos ho, if_pos ho]
      cases c with
      | control => exact hempty.1.symm
      | bulk => exact hempty.2.symm
    · rw [if_neg ho, if_neg ho]
  · rw [if_neg hempty, Assoc.find_set]
    by_cases ho : o = owner
    · rw [if_pos ho, if_pos ho, Option.getD_some]
    · rw [if_neg ho, if_neg ho]

theorem sum_left {owners : List (WriterOwner × OwnerQueues α)} :
    ((left owners owner queues).map fun entry => entry.2.control.length + entry.2.bulk.length).sum =
      queues.control.length + queues.bulk.length +
        ((Assoc.erase owners owner).map fun entry => entry.2.control.length + entry.2.bulk.length).sum := by
  unfold left
  split_ifs with hempty
  · rw [Bool.and_eq_true, List.isEmpty_iff, List.isEmpty_iff] at hempty
    rw [hempty.1, hempty.2]
    exact (Nat.zero_add _).symm
  · rfl

theorem popClass_spec (h : Sound s) {rest : List WriterOwner} (hfirst : s.order c = owner :: rest) :
    ∃ item queue s', s.popClass c = .ok (some (⟨owner, c, item.value⟩, s')) ∧
      Taken s s' owner c item queue rest ∧ Sound s' ∧ s'.controlBurst = s.controlBurst := by
  have hqueue : s.queueOf owner c ≠ [] := (h.mem_order c owner).1 (hfirst ▸ mem_cons_self)
  obtain ⟨item, queue, hitem⟩ := exists_cons_of_ne_nil hqueue
  obtain ⟨queues, hfind⟩ : ∃ queues, Assoc.find s.owners owner = some queues := by
    apply Option.ne_none_iff_exists'.1
    intro hnone
    rw [queueOf, hnone] at hqueue
    cases c <;> exact hqueue rfl
  have hq : queues.queue c = item :: queue := by
    rw [← hitem, queueOf, hfind, Option.getD_some]
  have hsum := sum_lengths h owner
  rw [hfind, Option.getD_some] at hsum
  have hset := length_setQueue (c := c) queues queue
  rw [hq, length_cons] at hset
  have hlen : s.len ≠ 0 := by
    have hle : (queues.queue c).length ≤ queues.control.length + queues.bulk.length := by
      cases c with
      | control => exact Nat.le_add_right _ _
      | bulk => exact Nat.le_add_left _ _
    rw [hq, length_cons] at hle
    omega
  let turned := rest ++ if queue.isEmpty then [] else [owner]
  have horder : ∀ c', ({ s.setOrder turned c with
      owners := left s.owners owner (queues.setQueue queue c), len := s.len - 1 } : FairScheduler α).order c' =
      if c' = c then turned else s.order c' := by
    intro c'
    rw [← order_setOrder]
    cases c' <;> rfl
  have htaken : Taken s { s.setOrder turned c with
      owners := left s.owners owner (queues.setQueue queue c), len := s.len - 1 } owner c item queue rest := by
    refine ⟨hfirst, hitem, ?_, fun o c' hne => ?_, ?_, fun c' hne => ?_⟩
    · rw [queueOf, find_left, if_pos rfl, queue_setQueue, if_pos rfl]
    · rw [queueOf, find_left]
      by_cases ho : o = owner
      · subst ho
        rw [if_pos rfl, queue_setQueue, if_neg fun hc => hne ⟨rfl, hc⟩, queueOf, hfind, Option.getD_some]
      · rw [if_neg ho, queueOf]
    · rw [horder, if_pos rfl]
    · rw [horder, if_neg hne]
  refine ⟨item, queue, _, ?_, htaken, ⟨?_, htaken.nodup h, htaken.mem_order h, ?_⟩, controlBurst_setOrder turned⟩
  · unfold popClass
    rw [hfirst]
    dsimp only
    rw [hfind]
    dsimp only
    rw [hq]
    dsimp only
    rw [len_setOrder, if_neg hlen, owners_setOrder]
    rfl
  · change ((left s.owners owner (queues.setQueue queue c)).map Prod.fst).Nodup
    unfold left
    split_ifs
    · exact Assoc.nodup_erase h.distinct
    · exact Assoc.nodup_set h.distinct
  · dsimp only
    rw [sum_left]
    omega

/-- The control messages popped in a row, as the scheduler counts them after a pop. -/
def burstAfter (burst : Nat) : WriterClass → Nat
  | .control => min (burst + 1) (2 ^ 64 - 1)
  | .bulk => 0

theorem popSelected_spec (h : Sound s) (hfirst : s.order c = owner :: rest) :
    ∃ item queue s', s.popSelected c = .ok (some (⟨owner, c, item.value⟩, s')) ∧
      Taken s s' owner c item queue rest ∧ Sound s' ∧ s'.controlBurst = burstAfter s.controlBurst c := by
  obtain ⟨item, queue, s', hpop, htaken, hsound, hburst⟩ := popClass_spec h hfirst
  unfold popSelected
  rw [hpop]
  cases c with
  | control =>
    refine ⟨item, queue, _, rfl, ?_, ?_, ?_⟩
    · exact ⟨htaken.first, htaken.queue_before, htaken.queue_after, htaken.other, htaken.order,
        fun c' hne => by cases c' with
          | control => exact absurd rfl hne
          | bulk => exact htaken.order_other .bulk hne⟩
    · exact ⟨hsound.distinct, fun c => by cases c; exacts [hsound.nodup .control, hsound.nodup .bulk],
        fun c => by cases c; exacts [hsound.mem_order .control, hsound.mem_order .bulk], hsound.len⟩
    · rw [← hburst]
      rfl
  | bulk =>
    refine ⟨item, queue, _, rfl, ?_, ?_, rfl⟩
    · exact ⟨htaken.first, htaken.queue_before, htaken.queue_after, htaken.other, htaken.order,
        fun c' hne => by cases c' with
          | bulk => exact absurd rfl hne
          | control => exact htaken.order_other .control hne⟩
    · exact ⟨hsound.distinct, fun c => by cases c; exacts [hsound.nodup .control, hsound.nodup .bulk],
        fun c => by cases c; exacts [hsound.mem_order .control, hsound.mem_order .bulk], hsound.len⟩

/-- What an action of the scheduler does. -/
inductive Acts : FairScheduler α → Action α → FairScheduler α → Prop
  | push {s s' : FairScheduler α} {owner : WriterOwner} {c : WriterClass} {t : Nat} {v : α} :
    Pushed s s' owner c t v → Acts s (.pushed owner c v) s'
  | pop {s s' : FairScheduler α} {owner : WriterOwner} {c : WriterClass} {item : Scheduled α}
      {queue : List (Scheduled α)} {rest : List WriterOwner} :
    Taken s s' owner c item queue rest → s'.controlBurst = burstAfter s.controlBurst c →
    (c = .control → s.bulkOrder ≠ [] → s.controlBurst < maxControlBurst) →
    Acts s (.popped ⟨owner, c, item.value⟩) s'

theorem selected_spec (h : Sound s) (hne : s.order c ≠ [])
    (hallowed : c = .control → s.bulkOrder ≠ [] → s.controlBurst < maxControlBurst) :
    ∃ p s', s.popSelected c = .ok (some (p, s')) ∧ Acts s (.popped p) s' ∧ Sound s' := by
  obtain ⟨owner, rest, hfirst⟩ := exists_cons_of_ne_nil hne
  obtain ⟨item, queue, s', hpop, htaken, hsound, hburst⟩ := popSelected_spec h hfirst
  exact ⟨_, s', hpop, .pop htaken hburst hallowed, hsound⟩

theorem burst_lt_of_not_bulkShouldRun (hrun : s.bulkShouldRun now = false)
    (hbulk : s.bulkOrder ≠ []) : s.controlBurst < maxControlBurst := by
  unfold bulkShouldRun at hrun
  by_contra hge
  rw [Bool.and_eq_false_iff, Bool.or_eq_false_iff] at hrun
  rcases hrun with hrun | ⟨hrun, -⟩
  · exact hbulk (List.isEmpty_iff.1 (by simpa using hrun))
  · exact of_decide_eq_false hrun (not_lt.1 hge)

theorem pop_spec (h : Sound s) (now : Nat) : s.pop now = .ok none ∨
    ∃ p s', s.pop now = .ok (some (p, s')) ∧ Acts s (.popped p) s' ∧ Sound s' := by
  unfold pop
  cases hcontrol : s.controlOrder with
  | nil =>
    cases hbulk : s.bulkOrder with
    | nil => exact .inl rfl
    | cons b bs =>
      have hne : s.order .bulk ≠ [] := fun hnil => nomatch hbulk.symm.trans hnil
      exact .inr (selected_spec h hne fun hno => nomatch hno)
  | cons a as =>
    have hne : s.order .control ≠ [] := fun hnil => nomatch hcontrol.symm.trans hnil
    cases hbulk : s.bulkOrder with
    | nil => exact .inr (selected_spec h hne fun _ hno => absurd hbulk hno)
    | cons b bs =>
      have hne' : s.order .bulk ≠ [] := fun hnil => nomatch hbulk.symm.trans hnil
      change (if s.bulkShouldRun now then _ else _) = _ ∨ ∃ p s', (if s.bulkShouldRun now then _ else _) = _ ∧ _
      split_ifs with hrun
      · exact .inr (selected_spec h hne' fun hno => nomatch hno)
      · exact .inr (selected_spec h hne fun _ hbulk =>
          burst_lt_of_not_bulkShouldRun (Bool.not_eq_true _ ▸ hrun) hbulk)

theorem popControlForGroup_spec (h : Sound s) (now : Nat) : s.popControlForGroup now = .ok none ∨
    ∃ p s', s.popControlForGroup now = .ok (some (p, s')) ∧ Acts s (.popped p) s' ∧ Sound s' := by
  unfold popControlForGroup
  split_ifs with hstop
  · exact .inl rfl
  · rw [Bool.or_eq_true, not_or, List.isEmpty_iff] at hstop
    have hne : s.order .control ≠ [] := hstop.1
    exact .inr (selected_spec h hne fun _ hbulk =>
      burst_lt_of_not_bulkShouldRun (Bool.not_eq_true _ ▸ hstop.2) hbulk)

end FairScheduler

end Obsetync.Writer
