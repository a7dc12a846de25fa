import Mathlib

/-! Taking turns in a rotation. -/

namespace RoundRobin
open List

inductive Move (κ : Type) where
  | join (k : κ)
  | serve (k : κ) (stays : Bool)

def Move.served {κ : Type} : Move κ → Option κ
  | .join _ => none
  | .serve k _ => some k

inductive Step {κ : Type} : List κ → Move κ → List κ → Prop
  | join {order : List κ} {k : κ} (h : k ∉ order) : Step order (.join k) (order ++ [k])
  | serve (k : κ) (rest : List κ) (stays : Bool) :
    Step (k :: rest) (.serve k stays) (rest ++ if stays then [k] else [])

inductive Run {κ : Type} : List κ → List (Move κ) → List κ → Prop
  | nil (order : List κ) : Run order [] order
  | cons {order order' order'' : List κ} {move : Move κ} {moves : List (Move κ)} :
    Step order move order' → Run order' moves order'' → Run order (move :: moves) order''

def served {κ : Type} (moves : List (Move κ)) : List κ := moves.filterMap Move.served

/-- `b` has its place in the rotation, and `a` is not before it. -/
def Ahead {κ : Type} (order : List κ) (b a : κ) : Prop := ∃ x y, order = x ++ b :: y ∧ a ∉ x

variable {κ : Type} {order order' : List κ} {moves : List (Move κ)} {move : Move κ} {a b : κ}

theorem Step.nodup (h : Step order move order') (hnd : order.Nodup) : order'.Nodup := by
  cases h with
  | join hk => exact nodup_append.2 ⟨hnd, nodup_singleton _, fun x hx y hy => by
      rw [mem_singleton.1 hy]
      rintro rfl
      exact hk hx⟩
  | serve k rest stays =>
    obtain ⟨hk, hrest⟩ := nodup_cons.1 hnd
    cases stays with
    | false => simpa using hrest
    | true => simpa [nodup_append] using ⟨hrest, fun x hx => by rintro rfl; exact hk hx⟩

theorem Step.ahead (h : Step order move order') (hahead : Ahead order b a)
    (hb : move.served ≠ some b) : Ahead order' b a ∧ move.served ≠ some a := by
  cases h with
  | @join _ k hk =>
    obtain ⟨x, y, rfl, hx⟩ := hahead
    exact ⟨⟨x, y ++ [k], by rw [append_assoc, cons_append], hx⟩, nofun⟩
  | serve k rest stays =>
    obtain ⟨x, y, hxy, hx⟩ := hahead
    cases x with
    | nil =>
      obtain ⟨rfl, -⟩ := List.cons.inj hxy
      exact absurd rfl hb
    | cons c x =>
      rw [cons_append] at hxy
      obtain ⟨rfl, rfl⟩ := List.cons.inj hxy
      obtain ⟨hac, hax⟩ := not_or.1 (mem_cons.not.1 hx)
      exact ⟨⟨x, y ++ _, by rw [append_assoc, cons_append], hax⟩,
        fun heq => hac (Option.some.inj heq).symm⟩

theorem served_cons : served (move :: moves) = move.served.toList ++ served moves := by
  unfold served
  rw [filterMap_cons]
  cases move.served <;> rfl

theorem Run.ahead (h : Run order moves order') (hahead : Ahead order b a) (hb : b ∉ served moves) :
    Ahead order' b a ∧ a ∉ served moves := by
  induction h with
  | nil order => exact ⟨hahead, not_mem_nil⟩
  | cons hstep hrun ih =>
    rw [served_cons, mem_append, Option.mem_toList, not_or] at hb
    obtain ⟨hahead', ha⟩ := hstep.ahead hahead hb.1
    obtain ⟨hend, hrest⟩ := ih hahead' hb.2
    refine ⟨hend, ?_⟩
    rw [served_cons, mem_append, Option.mem_toList, not_or]
    exact ⟨ha, hrest⟩

theorem Run.append {moves' : List (Move κ)} {order'' : List κ} (h : Run order moves order')
    (h' : Run order' moves' order'') : Run order (moves ++ moves') order'' := by
  induction h with
  | nil order => exact h'
  | cons hstep hrun ih => exact .cons hstep (ih h')

theorem Run.count_served_le [DecidableEq κ] (h : Run order moves order') (hnd : order.Nodup)
    (hmem : a ∈ order) (ha : a ∉ served moves) : (served moves).count b ≤ 1 := by
  induction h with
  | nil order => exact Nat.zero_le _
  | @cons order next order'' move moves hstep hrun ih =>
    rw [served_cons, mem_append, Option.mem_toList, not_or] at ha
    rw [served_cons, count_append]
    cases hstep with
    | @join _ k hk => exact (Nat.zero_add _).le.trans (ih (Step.nodup (.join hk) hnd) (mem_append_left _ hmem) ha.2)
    | serve k rest stays =>
      have hak : a ≠ k := fun heq => ha.1 (congrArg some heq.symm)
      have harest : a ∈ rest := (mem_cons.1 hmem).resolve_left hak
      obtain ⟨hk, -⟩ := nodup_cons.1 hnd
      by_cases hbk : b = k
      · subst hbk
        have hahead : Ahead (rest ++ if stays then [b] else []) a b := by
          obtain ⟨x, y, rfl⟩ := append_of_mem harest
          refine ⟨x, y ++ _, by rw [append_assoc, cons_append], fun hx => ?_⟩
          exact hk (mem_append_left _ hx)
        rw [count_eq_zero_of_not_mem (hrun.ahead hahead ha.2).2]
        exact count_le_length.trans (by simp)
      · have hzero : (Move.serve k stays).served.toList.count b = 0 := by
          simpa [Move.served, count_singleton] using Ne.symm hbk
        rw [hzero, Nat.zero_add]
        exact ih (Step.nodup (.serve k rest stays) hnd) (mem_append_left _ harest) ha.2

end RoundRobin
