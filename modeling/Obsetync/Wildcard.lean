import Mathlib

/-! Patterns of letters, single wildcards and stars, and the words that they match. -/

namespace Wildcard
open List

inductive Token (α : Type) where
  | star
  | one
  | lit (a : α)
  deriving DecidableEq, Repr

/-- The language of a pattern. -/
inductive Matches {α : Type} : List (Token α) → List α → Prop
  | nil : Matches [] []
  | lit (a : α) {p t} : Matches p t → Matches (.lit a :: p) (a :: t)
  | one (a : α) {p t} : Matches p t → Matches (.one :: p) (a :: t)
  | skip {p t} : Matches p t → Matches (.star :: p) t
  | take (a : α) {p t} : Matches (.star :: p) t → Matches (.star :: p) (a :: t)

variable {α : Type} {p q : List (Token α)} {t u : List α} {a : α}

theorem matches_nil_left : Matches ([] : List (Token α)) t ↔ t = [] := by
  constructor
  · intro h
    cases h
    rfl
  · rintro rfl
    exact .nil

theorem matches_lit_cons : Matches (.lit b :: p) (a :: t) ↔ b = a ∧ Matches p t := by
  constructor
  · intro h
    cases h with
    | lit _ h => exact ⟨rfl, h⟩
  · rintro ⟨rfl, h⟩
    exact .lit b h

theorem matches_one_cons : Matches (.one :: p) (a :: t) ↔ Matches p t := by
  constructor
  · intro h
    cases h with
    | one _ h => exact h
  · exact .one a

theorem Matches.star_append (h : Matches (.star :: p) t) (u : List α) : Matches (.star :: p) (u ++ t) := by
  induction u with
  | nil => exact h
  | cons a u ih => exact .take a ih

theorem Matches.exists_suffix (h : Matches q t) (hq : q = .star :: p) : ∃ u v, t = u ++ v ∧ Matches p v := by
  induction h with
  | nil => cases hq
  | lit => cases hq
  | one => cases hq
  | skip h =>
    cases hq
    exact ⟨[], _, rfl, h⟩
  | take a h ih =>
    obtain ⟨u, v, rfl, hv⟩ := ih hq
    exact ⟨a :: u, v, rfl, hv⟩

theorem matches_star : Matches (.star :: p) t ↔ ∃ u v, t = u ++ v ∧ Matches p v := by
  constructor
  · exact fun h => h.exists_suffix rfl
  · rintro ⟨u, v, rfl, h⟩
    exact Matches.star_append (.skip h) u

theorem matches_nil_right : Matches p [] ↔ ∀ tok ∈ p, tok = .star := by
  induction p with
  | nil => simp [matches_nil_left]
  | cons tok p ih =>
    rw [forall_mem_cons, ← ih]
    cases tok with
    | star => exact ⟨fun h => ⟨rfl, by cases h with | skip h => exact h⟩, fun h => .skip h.2⟩
    | one => exact iff_of_false (fun h => by cases h) fun h => nomatch h.1
    | lit b => exact iff_of_false (fun h => by cases h) fun h => nomatch h.1

theorem Matches.drop_of_no_star (hq : .star ∉ q) (h : Matches (q ++ p) t) :
    q.length ≤ t.length ∧ Matches p (t.drop q.length) := by
  induction q generalizing t with
  | nil => exact ⟨Nat.zero_le _, h⟩
  | cons tok q ih =>
    obtain ⟨htok, hq'⟩ := not_or.1 (mem_cons.not.1 hq)
    have hstep : ∃ a t', t = a :: t' ∧ Matches (q ++ p) t' := by
      cases h with
      | lit a h => exact ⟨a, _, rfl, h⟩
      | one a h => exact ⟨a, _, rfl, h⟩
      | skip h => exact absurd rfl htok
      | take a h => exact absurd rfl htok
    obtain ⟨a, t', rfl, h'⟩ := hstep
    obtain ⟨hlen, hrest⟩ := ih hq' h'
    exact ⟨Nat.succ_le_succ hlen, hrest⟩

theorem matches_replicate_one : Matches (List.replicate n .one) t ↔ t.length = n := by
  induction n generalizing t with
  | zero => rw [replicate_zero, matches_nil_left, length_eq_zero_iff]
  | succ n ih =>
    cases t with
    | nil => exact iff_of_false (fun h => by cases h) (Nat.succ_ne_zero n).symm
    | cons a t =>
      rw [replicate_succ, matches_one_cons, ih, length_cons, Nat.add_right_cancel_iff]

theorem Matches.append {r : List (Token α)} (h : Matches p t) (h' : Matches r u) :
    Matches (p ++ r) (t ++ u) := by
  induction h with
  | nil => exact h'
  | lit a _ ih => exact .lit a ih
  | one a _ ih => exact .one a ih
  | skip _ ih => exact .skip ih
  | take a _ ih => exact .take a ih

theorem matches_map_lit_append : Matches (w.map .lit ++ p) t ↔ ∃ v, t = w ++ v ∧ Matches p v := by
  induction w generalizing t with
  | nil => exact ⟨fun h => ⟨t, rfl, h⟩, fun ⟨v, hv, h⟩ => hv ▸ h⟩
  | cons b w ih =>
    cases t with
    | nil => exact iff_of_false (fun h => by cases h) fun ⟨v, hv, _⟩ => nomatch hv
    | cons a t =>
      rw [map_cons, cons_append, matches_lit_cons, ih]
      constructor
      · rintro ⟨rfl, v, rfl, h⟩
        exact ⟨v, rfl, h⟩
      · rintro ⟨v, hv, h⟩
        obtain ⟨rfl, rfl⟩ := List.cons.inj hv
        exact ⟨rfl, v, rfl, h⟩

end Wildcard
