import Mathlib

/-! Finite maps as lists of keys and values. -/

namespace Assoc
open List

variable {κ α : Type} [DecidableEq κ] {l : List (κ × α)} {k k' : κ} {v : α}

def find (l : List (κ × α)) (k : κ) : Option α := (l.find? (·.1 = k)).map Prod.snd

def erase (l : List (κ × α)) (k : κ) : List (κ × α) := l.filter (·.1 ≠ k)

def set (l : List (κ × α)) (k : κ) (v : α) : List (κ × α) := (k, v) :: erase l k

def adjust (l : List (κ × α)) (k : κ) (f : α → α) : List (κ × α) :=
  match find l k with
  | some v => set l k (f v)
  | none => l

@[simp] theorem find_nil : find ([] : List (κ × α)) k = none := rfl

theorem find_cons (entry : κ × α) : find (entry :: l) k = if entry.1 = k then some entry.2 else find l k := by
  rw [find, find?_cons]
  split_ifs with h
  · rw [decide_eq_true h]
    rfl
  · rw [decide_eq_false h]
    rfl

theorem find_erase : find (erase l k) k' = if k' = k then none else find l k' := by
  induction l with
  | nil =>
    rw [erase, filter_nil, find_nil]
    split_ifs <;> rfl
  | cons entry l ih =>
    rw [erase, filter_cons]
    by_cases h : entry.1 = k
    · rw [if_neg (by simpa using h), ← erase, ih, find_cons]
      by_cases hk : k' = k
      · rw [if_pos hk, if_pos hk]
      · rw [if_neg hk, if_neg hk, if_neg fun heq => hk (heq.symm.trans h)]
    · rw [if_pos (by simpa using h), find_cons, ← erase, ih, find_cons]
      by_cases hk : k' = k
      · rw [if_pos hk, if_pos hk, if_neg fun heq => h (heq.trans hk)]
      · rw [if_neg hk, if_neg hk]

theorem find_set : find (set l k v) k' = if k' = k then some v else find l k' := by
  rw [set, find_cons, find_erase]
  by_cases h : k' = k
  · rw [if_pos h.symm, if_pos h]
  · rw [if_neg (Ne.symm h), if_neg h, if_neg h]

theorem find_adjust : find (adjust l k f) k' = if k' = k then (find l k').map f else find l k' := by
  rw [adjust]
  by_cases h : k' = k
  · subst h
    rw [if_pos rfl]
    cases hfind : find l k' with
    | none => exact hfind
    | some v => exact find_set.trans (if_pos rfl)
  · rw [if_neg h]
    cases hfind : find l k with
    | none => rfl
    | some v => exact find_set.trans (if_neg h)

theorem mem_keys (l : List (κ × α)) (k : κ) : k ∈ l.map Prod.fst ↔ (find l k).isSome := by
  induction l with
  | nil => simp
  | cons entry l ih =>
    rw [map_cons, mem_cons, ih, find_cons]
    by_cases h : entry.1 = k
    · rw [if_pos h]
      exact iff_of_true (.inl h.symm) rfl
    · rw [if_neg h]
      exact or_iff_right fun heq => h heq.symm

theorem mem_of_find (h : find l k = some v) : (k, v) ∈ l := by
  obtain ⟨entry, hfind, rfl⟩ := Option.map_eq_some_iff.1 h
  have hkey := find?_some hfind
  rw [← of_decide_eq_true hkey]
  exact mem_of_find?_eq_some hfind

theorem erase_of_find_none (h : find l k = none) : erase l k = l := by
  rw [erase, filter_eq_self]
  intro entry hentry
  have hnot : ¬ (find l k).isSome := by simp [h]
  rw [← mem_keys] at hnot
  apply decide_eq_true
  intro heq
  exact hnot (heq ▸ mem_map_of_mem hentry)

theorem perm_of_find (hkeys : (l.map Prod.fst).Nodup) (h : find l k = some v) :
    l.Perm ((k, v) :: erase l k) := by
  induction l with
  | nil => cases h
  | cons entry l ih =>
    obtain ⟨hnot, hkeys⟩ := nodup_cons.1 hkeys
    rw [find_cons] at h
    by_cases heq : entry.1 = k
    · rw [if_pos heq] at h
      obtain rfl := Option.some.inj h
      have hnone : find l k = none := by
        rw [← Option.not_isSome_iff_eq_none, ← mem_keys, ← heq]
        exact hnot
      rw [erase, filter_cons_of_neg (by simpa using heq), ← erase, erase_of_find_none hnone, ← heq]
    · rw [if_neg heq] at h
      rw [erase, filter_cons_of_pos (by simpa using heq), ← erase]
      exact ((ih hkeys h).cons entry).trans (List.Perm.swap _ _ _)

theorem find_of_mem (hkeys : (l.map Prod.fst).Nodup) (h : (k, v) ∈ l) : find l k = some v := by
  induction l with
  | nil => cases h
  | cons entry l ih =>
    obtain ⟨hnot, hkeys⟩ := nodup_cons.1 hkeys
    rw [find_cons]
    rcases mem_cons.1 h with rfl | h
    · exact if_pos rfl
    · rw [if_neg, ih hkeys h]
      intro heq
      exact hnot (heq ▸ mem_map_of_mem h)

theorem nodup_erase (hkeys : (l.map Prod.fst).Nodup) : ((erase l k).map Prod.fst).Nodup :=
  hkeys.sublist (filter_sublist.map Prod.fst)

theorem nodup_set (hkeys : (l.map Prod.fst).Nodup) : ((set l k v).map Prod.fst).Nodup := by
  rw [set, map_cons, nodup_cons, mem_keys, find_erase, if_pos rfl]
  exact ⟨Bool.false_ne_true, nodup_erase hkeys⟩

theorem sum_erase (hkeys : (l.map Prod.fst).Nodup) (f : α → Nat) (k : κ) :
    (l.map (f ·.2)).sum = (find l k).elim 0 f + ((erase l k).map (f ·.2)).sum := by
  cases h : find l k with
  | none => rw [erase_of_find_none h, Option.elim_none, Nat.zero_add]
  | some v => exact ((perm_of_find hkeys h).map _).sum_eq

end Assoc
