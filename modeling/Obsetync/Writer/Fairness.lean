import Obsetync.Writer.Scheduler
import Obsetync.Fallible

namespace Obsetync.Writer

open FairScheduler RoundRobin List

variable {α : Type}

def pushes (log : List (Action α)) (owner : WriterOwner) (c : WriterClass) : List α :=
  log.filterMap fun
    | .pushed owner' c' value => if owner' = owner ∧ c' = c then some value else none
    | .popped _ => none

def pops (log : List (Action α)) (owner : WriterOwner) (c : WriterClass) : List α :=
  log.filterMap fun
    | .pushed .. => none
    | .popped p => if p.owner = owner ∧ p.writerClass = c then some p.value else none

def turns (log : List (Action α)) (c : WriterClass) : List WriterOwner :=
  log.filterMap fun
    | .pushed .. => none
    | .popped p => if p.writerClass = c then some p.owner else none

def Waits (log : List (Action α)) (owner : WriterOwner) (c : WriterClass) : Prop :=
  (pops log owner c).length < (pushes log owner c).length

inductive Path : FairScheduler α → List (Action α) → FairScheduler α → Prop
  | nil (s : FairScheduler α) : Path s [] s
  | cons {s s' s'' : FairScheduler α} {a : Action α} {log : List (Action α)} :
    Acts s a s' → Sound s' → Path s' log s'' → Path s (a :: log) s''

variable {s s' : FairScheduler α} {log log' : List (Action α)} {a b owner : WriterOwner} {c : WriterClass}
  {act : Action α}

theorem Path.sound (h : Path s log s') (hs : Sound s) : Sound s' := by
  induction h with
  | nil s => exact hs
  | cons hact hsound hpath ih => exact ih hsound

theorem Path.split (h : Path s (log ++ log') s') : ∃ m, Path s log m ∧ Path m log' s' := by
  induction log generalizing s with
  | nil => exact ⟨s, .nil s, h⟩
  | cons act log ih =>
    cases h with
    | cons hact hsound hpath =>
      obtain ⟨m, hfirst, hsecond⟩ := ih hpath
      exact ⟨m, .cons hact hsound hfirst, hsecond⟩

theorem Path.append {s'' : FairScheduler α} (h : Path s log s') (h' : Path s' log' s'') :
    Path s (log ++ log') s'' := by
  induction h with
  | nil s => exact h'
  | cons hact hsound hpath ih => exact .cons hact hsound (ih h')

theorem step_path (hs : Sound s) (call : Call α) :
    ∃ s' log, s.step call = .ok (s', log) ∧ Path s log s' ∧ Sound s' := by
  have hpopped : ∀ {x : Except Fault (Option (Popped α × FairScheduler α))}, (x = .ok none ∨
      ∃ p s', x = .ok (some (p, s')) ∧ Acts s (.popped p) s' ∧ Sound s') →
      ∃ s' log, x.map (afterPop s) = .ok (s', log) ∧ Path s log s' ∧ Sound s' := by
    rintro x (rfl | ⟨p, s', rfl, hact, hsound⟩)
    · exact ⟨s, [], rfl, .nil s, hs⟩
    · exact ⟨s', [.popped p], rfl, .cons hact hsound (.nil s'), hsound⟩
  cases call with
  | push owner c t v => exact ⟨_, _, rfl, .cons (.push pushed_push) hs.push (.nil _), hs.push⟩
  | pop now => exact hpopped (pop_spec hs now)
  | popControlForGroup now => exact hpopped (popControlForGroup_spec hs now)

theorem run_path (hs : Sound s) (calls : List (Call α)) :
    ∃ s' log, s.run calls = .ok (s', log) ∧ Path s log s' ∧ Sound s' := by
  induction calls generalizing s with
  | nil => exact ⟨s, [], rfl, .nil s, hs⟩
  | cons call calls ih =>
    obtain ⟨m, log, hstep, hpath, hm⟩ := step_path hs call
    obtain ⟨s', log', hrun, hpath', hs'⟩ := ih hm
    refine ⟨s', log ++ log', ?_, hpath.append hpath', hs'⟩
    rw [FairScheduler.run, hstep]
    change (m.run calls >>= _) = _
    rw [hrun]
    rfl

theorem FairScheduler.Acts.fifo (h : Acts s act s') : (s.queueOf owner c).map Scheduled.value ++ pushes [act] owner c =
    pops [act] owner c ++ (s'.queueOf owner c).map Scheduled.value := by
  cases h with
  | @push _ o c' t v hp =>
    by_cases ho : o = owner ∧ c' = c
    · obtain ⟨rfl, rfl⟩ := ho
      rw [hp.queue, map_append]
      simp [pushes, pops]
    · rw [hp.other owner c fun hand => ho ⟨hand.1.symm, hand.2.symm⟩]
      simp [pushes, pops, ho]
  | @pop _ o c' item queue rest htaken =>
    by_cases ho : o = owner ∧ c' = c
    · obtain ⟨rfl, rfl⟩ := ho
      rw [htaken.queue_before, htaken.queue_after]
      simp [pushes, pops]
    · rw [htaken.other owner c fun hand => ho ⟨hand.1.symm, hand.2.symm⟩]
      simp [pushes, pops, ho]

theorem pushes_append : pushes (log ++ log') owner c = pushes log owner c ++ pushes log' owner c :=
  filterMap_append

theorem pops_append : pops (log ++ log') owner c = pops log owner c ++ pops log' owner c :=
  filterMap_append

theorem turns_append : turns (log ++ log') c = turns log c ++ turns log' c := filterMap_append

theorem Path.fifo (h : Path s log s') : (s.queueOf owner c).map Scheduled.value ++ pushes log owner c =
    pops log owner c ++ (s'.queueOf owner c).map Scheduled.value := by
  induction h with
  | nil s => exact append_nil _
  | @cons s s₁ s' act log hact hsound hpath ih =>
    have hsplit : act :: log = [act] ++ log := rfl
    rw [hsplit, pushes_append, pops_append, ← append_assoc, hact.fifo, append_assoc, ih,
      append_assoc]

theorem queueOf_empty : ({} : FairScheduler α).queueOf owner c = [] := by cases c <;> rfl

theorem Path.pushes_eq (h : Path {} log s') :
    pushes log owner c = pops log owner c ++ (s'.queueOf owner c).map Scheduled.value := by
  rw [← h.fifo, queueOf_empty]
  rfl

theorem Path.waits_iff (h : Path {} log s') : Waits log owner c ↔ s'.queueOf owner c ≠ [] := by
  rw [Waits, h.pushes_eq, length_append, length_map, ← length_pos_iff]
  omega

theorem FairScheduler.Acts.rotation (h : Acts s act s') (hs : Sound s) :
    ∃ moves, Run (s.order c) moves (s'.order c) ∧ served moves = turns [act] c := by
  cases h with
  | @push _ o c' t v hp =>
    by_cases hc : c = c'
    · subst hc
      rw [hp.order]
      split_ifs with hq
      · have hnot : o ∉ s.order c := fun hmem => (hs.mem_order c o).1 hmem hq
        exact ⟨[.join o], .cons (.join hnot) (.nil _), rfl⟩
      · exact ⟨[], .nil _, rfl⟩
    · rw [hp.order_other c hc]
      exact ⟨[], .nil _, rfl⟩
  | @pop _ o c' item queue rest htaken =>
    by_cases hc : c = c'
    · subst hc
      refine ⟨[.serve o (!queue.isEmpty)], .cons htaken.step (.nil _), ?_⟩
      simp [served, turns, Move.served]
    · rw [htaken.order_other c hc]
      refine ⟨[], .nil _, ?_⟩
      simp [served, turns, Ne.symm hc]

theorem Path.rotation (h : Path s log s') (hs : Sound s) :
    ∃ moves, Run (s.order c) moves (s'.order c) ∧ served moves = turns log c := by
  induction h with
  | nil s => exact ⟨[], .nil _, rfl⟩
  | @cons s s₁ s' act log hact hsound hpath ih =>
    obtain ⟨first, hfirst, hserved⟩ := hact.rotation (c := c) hs
    obtain ⟨rest, hrest, hserved'⟩ := ih hsound
    refine ⟨first ++ rest, hfirst.append hrest, ?_⟩
    have hsplit : act :: log = [act] ++ log := rfl
    rw [hsplit, turns_append, ← hserved, ← hserved']
    exact filterMap_append

/-- Between two turns of an owner comes one of everybody who waited at the first, and, while the
owner goes on waiting, no second one. -/
theorem turns_between
    (h : Path {} (pre ++ .popped ⟨a, c, v⟩ :: mid ++ .popped ⟨a, c, w⟩ :: post) s')
    (ha : a ∉ turns mid c) : (∀ b, b ≠ a → Waits pre b c → b ∈ turns mid c) ∧
      (Waits (pre ++ [.popped ⟨a, c, v⟩]) a c → ∀ b, (turns mid c).count b ≤ 1) := by
  obtain ⟨m₂, hleft, hright⟩ := h.split
  obtain ⟨m₀, hpre, hmid⟩ := hleft.split
  have hs₀ := hpre.sound sound_empty
  cases hmid with
  | @cons _ m₁ _ _ _ hact hs₁ hmid =>
    have hpre₁ : Path {} (pre ++ [.popped ⟨a, c, v⟩]) m₁ := hpre.append (.cons hact hs₁ (.nil m₁))
    obtain ⟨moves, hrun, hserved⟩ := hmid.rotation (c := c) hs₁
    cases hright with
    | cons hact' =>
      cases hact with
      | pop htaken =>
        cases hact' with
        | pop htaken' =>
          have hnd := hs₀.nodup c
          rw [htaken.first, nodup_cons] at hnd
          constructor
          · intro b hne hwaits
            have hb : b ∈ m₀.order c := (hs₀.mem_order c b).2 (hpre.waits_iff.1 hwaits)
            rw [htaken.first, mem_cons, or_iff_right hne] at hb
            obtain ⟨x, y, hxy⟩ := append_of_mem hb
            have hahead : Ahead (m₁.order c) b a := by
              rw [htaken.order, hxy]
              refine ⟨x, y ++ _, by rw [append_assoc, cons_append], fun hx => hnd.1 ?_⟩
              rw [hxy]
              exact mem_append_left _ hx
            by_contra hnot
            rw [← hserved] at hnot
            obtain ⟨⟨x', y', hxy', hx'⟩, -⟩ := hrun.ahead hahead hnot
            rw [htaken'.first] at hxy'
            cases x' with
            | nil => exact hne (List.cons.inj hxy').1.symm
            | cons d x' => exact hx' ((List.cons.inj hxy').1 ▸ mem_cons_self)
          · intro hwaits b
            rw [← hserved] at ha ⊢
            have hmem : a ∈ m₁.order c := (hs₁.mem_order c a).2 (hpre₁.waits_iff.1 hwaits)
            exact hrun.count_served_le (hs₁.nodup c) hmem ha

theorem Path.burst (h : Path s log s') (hbulk : s.bulkOrder ≠ []) (hnone : turns log .bulk = []) :
    (turns log .control).length ≤ maxControlBurst - s.controlBurst := by
  induction h with
  | nil s => exact Nat.zero_le _
  | @cons s s₁ s' act log hact hsound hpath ih =>
    have hsplit : act :: log = [act] ++ log := rfl
    rw [hsplit, turns_append, append_eq_nil_iff] at hnone
    rw [hsplit, turns_append, length_append]
    cases hact with
    | @push _ o c' t v hp =>
      have hbulk' : s₁.order .bulk ≠ [] := by
        by_cases hc : WriterClass.bulk = c'
        · subst hc
          rw [hp.order]
          split_ifs
          · exact append_ne_nil_of_right_ne_nil _ (cons_ne_nil _ _)
          · exact hbulk
        · rw [hp.order_other .bulk hc]
          exact hbulk
      have := ih hbulk' hnone.2
      rw [hp.burst] at this
      exact (Nat.zero_add _).le.trans this
    | @pop _ o c' item queue rest htaken hburst hallowed =>
      cases c' with
      | bulk => exact absurd hnone.1 (cons_ne_nil _ _)
      | control =>
        have hbulk' : s₁.order .bulk ≠ [] := by
          rw [htaken.order_other .bulk nofun]
          exact hbulk
        have hlt := hallowed rfl hbulk
        have hrest := ih hbulk' hnone.2
        have hone : (turns [Action.popped (⟨o, .control, item.value⟩ : Popped α)] .control).length = 1 := rfl
        have h64 : maxControlBurst < 2 ^ 64 - 1 := by decide
        rw [hburst, burstAfter] at hrest
        rw [hone]
        omega

end Obsetync.Writer
