import Mathlib

/-! Cutting a sequence from its front, where a look at a bounded window decides each cut. -/

namespace Cutting
open List

variable {α : Type} {window : Nat} {cut : List α → Nat} {data later : List α} {n : Nat}

structure FirstCut (window : Nat) (cut : List α → Nat) : Prop where
  pos : ∀ data, data ≠ [] → 0 < cut data
  le_length : ∀ data, cut data ≤ data.length
  windowed : ∀ data, cut data = cut (data.take window)

def piecesUpTo (cut : List α → Nat) : Nat → List α → List (List α)
  | 0, _ => []
  | _ + 1, [] => []
  | n + 1, a :: data =>
    (a :: data).take (cut (a :: data)) :: piecesUpTo cut n ((a :: data).drop (cut (a :: data)))

def pieces (cut : List α → Nat) (data : List α) : List (List α) := piecesUpTo cut data.length data

theorem FirstCut.le_window (h : FirstCut window cut) (data : List α) : cut data ≤ window := by
  rw [h.windowed]
  exact (h.le_length _).trans (length_take_le _ _)

theorem FirstCut.drop_lt (h : FirstCut window cut) (hne : data ≠ []) :
    (data.drop (cut data)).length < data.length := by
  have hpos := h.pos data hne
  have hlen := length_pos_iff.2 hne
  rw [length_drop]
  omega

theorem FirstCut.take_ne_nil (h : FirstCut window cut) (hne : data ≠ []) :
    data.take (cut data) ≠ [] := by
  have hpos := h.pos data hne
  have hlen := length_pos_iff.2 hne
  rw [← length_pos_iff, length_take]
  omega

theorem piecesUpTo_of_le (h : FirstCut window cut) (hn : data.length ≤ n) :
    piecesUpTo cut n data = pieces cut data := by
  induction n using Nat.strong_induction_on generalizing data with
  | _ n ih =>
    cases data with
    | nil => cases n <;> rfl
    | cons a data =>
      cases n with
      | zero => cases hn
      | succ n =>
        have hlt := h.drop_lt (cons_ne_nil a data)
        rw [length_cons] at hlt hn
        rw [pieces, length_cons, piecesUpTo, piecesUpTo, ih n n.lt_succ_self (by omega)]
        rcases Nat.lt_or_eq_of_le (Nat.le_of_succ_le_succ hn) with hlen | hlen
        · rw [ih data.length (by omega) (by omega)]
        · rw [hlen, ih n n.lt_succ_self (by omega)]

@[simp] theorem pieces_nil : pieces cut [] = [] := rfl

theorem pieces_eq (h : FirstCut window cut) (hne : data ≠ []) :
    pieces cut data = data.take (cut data) :: pieces cut (data.drop (cut data)) := by
  cases data with
  | nil => exact absurd rfl hne
  | cons a data =>
    have hlt := h.drop_lt hne
    rw [length_cons] at hlt
    rw [pieces, length_cons, piecesUpTo, piecesUpTo_of_le h (Nat.le_of_lt_succ hlt)]

theorem FirstCut.induction (h : FirstCut window cut) {motive : List α → Prop} (nil : motive [])
    (step : ∀ data, data ≠ [] → motive (data.drop (cut data)) → motive data) (data : List α) :
    motive data := by
  induction hn : data.length using Nat.strong_induction_on generalizing data with
  | _ n ih =>
    by_cases hne : data = []
    · exact hne ▸ nil
    · exact step data hne (ih _ (hn ▸ h.drop_lt hne) _ rfl)

theorem flatten_pieces (h : FirstCut window cut) (data : List α) :
    (pieces cut data).flatten = data := by
  induction data using h.induction with
  | nil => rfl
  | step data hne ih => rw [pieces_eq h hne, flatten_cons, ih, take_append_drop]

theorem mem_pieces (h : FirstCut window cut) {data piece : List α} (hp : piece ∈ pieces cut data) :
    piece ≠ [] ∧ piece.length ≤ window := by
  induction data using h.induction with
  | nil => cases hp
  | step data hne ih =>
    rw [pieces_eq h hne] at hp
    rcases mem_cons.1 hp with rfl | hp
    · exact ⟨h.take_ne_nil hne, (length_take_le _ _).trans (h.le_window data)⟩
    · exact ih hp

theorem FirstCut.append (h : FirstCut window cut) (hfull : window ≤ data.length) :
    cut (data ++ later) = cut data := by
  rw [h.windowed, take_append_of_le_length hfull, ← h.windowed]

theorem pieces_append (h : FirstCut window cut) (hne : data ≠ []) (hfull : window ≤ data.length) :
    pieces cut (data ++ later) =
      data.take (cut data) :: pieces cut (data.drop (cut data) ++ later) := by
  rw [pieces_eq h (append_ne_nil_of_left_ne_nil hne _), h.append hfull,
    take_append_of_le_length (h.le_length data), drop_append_of_le_length (h.le_length data)]

end Cutting
