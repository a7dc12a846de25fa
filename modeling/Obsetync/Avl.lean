import Obsetync.Keyed

/-! Height-balanced search trees as finite maps. -/

namespace Avl
open List

inductive Tree (κ β : Type) where
  | nil
  | node (key : κ) (value : β) (left right : Tree κ β)
  deriving Repr

namespace Tree

variable {κ β : Type}

def height : Tree κ β → Nat
  | .nil => 0
  | .node _ _ left right => 1 + max (height left) (height right)

def size : Tree κ β → Nat
  | .nil => 0
  | .node _ _ left right => 1 + size left + size right

def toList : Tree κ β → List (κ × β)
  | .nil => []
  | .node key value left right => toList left ++ (key, value) :: toList right

def rotateLeft : Tree κ β → Tree κ β
  | .node key value left (.node pivotKey pivotValue pivotLeft pivotRight) =>
    .node pivotKey pivotValue (.node key value left pivotLeft) pivotRight
  | root => root

def rotateRight : Tree κ β → Tree κ β
  | .node key value (.node pivotKey pivotValue pivotLeft pivotRight) right =>
    .node pivotKey pivotValue pivotLeft (.node key value pivotRight right)
  | root => root

def leansLeft : Tree κ β → Bool
  | .nil => true
  | .node _ _ left right => height right ≤ height left

def leansRight : Tree κ β → Bool
  | .nil => true
  | .node _ _ left right => height left ≤ height right

def balance : Tree κ β → Tree κ β
  | .nil => .nil
  | .node key value left right =>
    if height right + 1 < height left then
      rotateRight (if leansLeft left then .node key value left right
        else .node key value (rotateLeft left) right)
    else if height left + 1 < height right then
      rotateLeft (if leansRight right then .node key value left right
        else .node key value left (rotateRight right))
    else .node key value left right

theorem toList_rotateLeft : (rotateLeft t).toList = t.toList := by
  cases t with
  | nil => rfl
  | node key value left right =>
    cases right with
    | nil => rfl
    | node pivotKey pivotValue pivotLeft pivotRight =>
      rw [rotateLeft, toList, toList, toList, toList, append_assoc, cons_append]

theorem toList_rotateRight : (rotateRight t).toList = t.toList := by
  cases t with
  | nil => rfl
  | node key value left right =>
    cases left with
    | nil => rfl
    | node pivotKey pivotValue pivotLeft pivotRight =>
      rw [rotateRight, toList, toList, toList, toList, append_assoc, cons_append]

theorem toList_balance : (balance t).toList = t.toList := by
  cases t with
  | nil => rfl
  | node key value left right =>
    rw [balance]
    split_ifs
    · exact toList_rotateRight
    · rw [toList_rotateRight, toList, toList_rotateLeft, toList]
    · exact toList_rotateLeft
    · rw [toList_rotateLeft, toList, toList_rotateRight, toList]
    · rfl

theorem size_eq_length (t : Tree κ β) : t.size = t.toList.length := by
  induction t with
  | nil => rfl
  | node key value left right ihl ihr =>
    rw [size, toList, length_append, length_cons, ihl, ihr]
    omega

def first : κ → β → Tree κ β → κ × β
  | key, value, .nil => (key, value)
  | _, _, .node key value left _ => first key value left

theorem toList_first (right : Tree κ β) : ∃ rest,
    (Tree.node key value left right).toList = first key value left :: rest := by
  induction left generalizing key value right with
  | nil => exact ⟨right.toList, rfl⟩
  | node key' value' left' right' ih _ =>
    obtain ⟨rest, hrest⟩ := ih right'
    exact ⟨rest ++ (key, value) :: right.toList, by rw [toList, hrest]; rfl⟩

def Balanced : Tree κ β → Prop
  | .nil => True
  | .node _ _ left right => Balanced left ∧ Balanced right ∧
    height left ≤ height right + 1 ∧ height right ≤ height left + 1

section
variable {left right : Tree κ β} {key : κ} {value : β}

theorem Balanced.balance_eq (h : Balanced (.node key value left right)) :
    balance (.node key value left right) = .node key value left right := by
  obtain ⟨-, -, hl, hr⟩ := h
  rw [balance, if_neg (by omega), if_neg (by omega)]

theorem balanced_balance (hl : Balanced left) (hr : Balanced right)
    (hlr : height left ≤ height right + 2) (hrl : height right ≤ height left + 2) :
    Balanced (balance (.node key value left right)) ∧
      max (height left) (height right) ≤ height (balance (.node key value left right)) ∧
      height (balance (.node key value left right)) ≤ 1 + max (height left) (height right) ∧
      (height left ≤ height right + 1 → height right ≤ height left + 1 →
        height (balance (.node key value left right)) = 1 + max (height left) (height right)) := by
  rw [balance]
  split_ifs with hleft hleans hright hleans
  · cases left with
    | nil => simp [height] at hleft
    | node k v ll lr =>
      obtain ⟨hll, hlr', hdl, hdr⟩ := hl
      rw [leansLeft, decide_eq_true_iff] at hleans
      simp only [height] at *
      simp only [rotateRight, Balanced, height, hll, hlr', hr, true_and]
      omega
  · cases left with
    | nil => simp [height] at hleft
    | node k v ll lr =>
      obtain ⟨hll, hlr', hdl, hdr⟩ := hl
      cases lr with
      | nil => simp [leansLeft, height] at hleans
      | node k' v' ml mr =>
        obtain ⟨hml, hmr, hml', hmr'⟩ := hlr'
        rw [leansLeft, decide_eq_true_iff] at hleans
        simp only [height] at *
        simp only [rotateLeft, rotateRight, Balanced, height, hll, hml, hmr, hr, true_and]
        omega
  · cases right with
    | nil => simp [height] at hright
    | node k v rl rr =>
      obtain ⟨hrl', hrr, hdl, hdr⟩ := hr
      rw [leansRight, decide_eq_true_iff] at hleans
      simp only [height] at *
      simp only [rotateLeft, Balanced, height, hrl', hrr, hl, true_and]
      omega
  · cases right with
    | nil => simp [height] at hright
    | node k v rl rr =>
      obtain ⟨hrl', hrr, hdl, hdr⟩ := hr
      cases rl with
      | nil => simp [leansRight, height] at hleans
      | node k' v' ml mr =>
        obtain ⟨hml, hmr, hml', hmr'⟩ := hrl'
        rw [leansRight, decide_eq_true_iff] at hleans
        simp only [height] at *
        simp only [rotateLeft, rotateRight, Balanced, height, hrr, hml, hmr, hl, true_and]
        omega
  · refine ⟨⟨hl, hr, by omega, by omega⟩, ?_, le_rfl, fun _ _ => rfl⟩
    rw [height]
    omega

end

variable [LinearOrder κ]

def get : Tree κ β → κ → Option β
  | .nil, _ => none
  | .node key value left right, k =>
    if k = key then some value else if k < key then get left k else get right k

def insert : Tree κ β → κ → β → Tree κ β
  | .nil, k, v => .node k v .nil .nil
  | .node key value left right, k, v =>
    if k = key then .node k v left right
    else if k < key then balance (.node key value (insert left k v) right)
    else balance (.node key value left (insert right k v))

def remove : Tree κ β → κ → Tree κ β
  | .nil, _ => .nil
  | .node key value left right, k =>
    if k < key then balance (.node key value (remove left k) right)
    else if key < k then balance (.node key value left (remove right k))
    else match left, right with
      | .nil, right => right
      | left, .nil => left
      | left, .node rightKey rightValue rightLeft rightRight =>
        let successor := first rightKey rightValue rightLeft
        balance (.node successor.1 successor.2 left
          (remove (.node rightKey rightValue rightLeft rightRight) successor.1))

def Sorted (t : Tree κ β) : Prop := Keyed.Sorted Prod.fst t.toList

variable {t u left right : Tree κ β} {k k' key : κ} {v value : β}

theorem sorted_nil : Sorted (.nil : Tree κ β) := List.Pairwise.nil

theorem sorted_node : Sorted (.node key value left right) ↔
    Sorted left ∧ Sorted right ∧ (∀ e ∈ left.toList, e.1 < key) ∧ ∀ e ∈ right.toList, key < e.1 := by
  rw [Sorted, toList, Keyed.Sorted, pairwise_append, pairwise_cons]
  constructor
  · rintro ⟨hl, ⟨hkey, hr⟩, hcross⟩
    exact ⟨hl, hr, fun e he => hcross e he _ mem_cons_self, hkey⟩
  · rintro ⟨hl, hr, hlt, hkey⟩
    refine ⟨hl, ⟨hkey, hr⟩, fun e he e' he' => ?_⟩
    rcases mem_cons.1 he' with rfl | he'
    · exact hlt e he
    · exact (hlt e he).trans (hkey e' he')

theorem Sorted.get_eq_some (h : Sorted t) : get t k = some v ↔ (k, v) ∈ t.toList := by
  induction t with
  | nil => exact iff_of_false (fun h => nomatch h) not_mem_nil
  | node key value left right ihl ihr =>
    obtain ⟨hl, hr, hlt, hgt⟩ := sorted_node.1 h
    rw [get, toList, mem_append, mem_cons, Prod.mk.injEq]
    rcases lt_trichotomy k key with hk | rfl | hk
    · rw [if_neg hk.ne, if_pos hk, ihl hl]
      have hnot : (k, v) ∉ right.toList := fun hmem => (hgt _ hmem).not_gt hk
      exact ⟨.inl, fun h => h.resolve_right fun h => h.elim (hk.ne ·.1) hnot⟩
    · rw [if_pos rfl, Option.some.injEq]
      have hnl : (k, v) ∉ left.toList := fun hmem => lt_irrefl _ (hlt _ hmem)
      have hnr : (k, v) ∉ right.toList := fun hmem => lt_irrefl _ (hgt _ hmem)
      constructor
      · rintro rfl
        exact .inr (.inl ⟨rfl, rfl⟩)
      · rintro (hmem | ⟨-, rfl⟩ | hmem)
        · exact absurd hmem hnl
        · rfl
        · exact absurd hmem hnr
    · rw [if_neg hk.ne', if_neg hk.not_gt, ihr hr]
      have hnot : (k, v) ∉ left.toList := fun hmem => (hlt _ hmem).not_gt hk
      exact ⟨fun h => .inr (.inr h), fun h => (h.resolve_left hnot).resolve_left (hk.ne' ·.1)⟩

theorem toList_insert (h : Sorted t) : (insert t k v).toList =
    t.toList.filter (·.1 < k) ++ (k, v) :: t.toList.filter (k < ·.1) := by
  induction t with
  | nil => rfl
  | node key value left right ihl ihr =>
    obtain ⟨hl, hr, hlt, hgt⟩ := sorted_node.1 h
    rw [insert, toList, filter_append, filter_append, filter_cons, filter_cons]
    rcases lt_trichotomy k key with hk | rfl | hk
    · have hnone : right.toList.filter (·.1 < k) = [] :=
        filter_eq_nil_iff.2 fun e he => by simpa using (hk.trans (hgt e he)).le
      have hall : right.toList.filter (k < ·.1) = right.toList :=
        filter_eq_self.2 fun e he => by simpa using hk.trans (hgt e he)
      rw [if_neg hk.ne, if_pos hk, toList_balance, toList, ihl hl, hnone, hall,
        if_neg (by simpa using hk.le), if_pos (by simpa using hk)]
      simp
    · have hleft : left.toList.filter (·.1 < k) = left.toList :=
        filter_eq_self.2 fun e he => by simpa using hlt e he
      have hnl : left.toList.filter (k < ·.1) = [] :=
        filter_eq_nil_iff.2 fun e he => by simpa using (hlt e he).le
      have hnr : right.toList.filter (·.1 < k) = [] :=
        filter_eq_nil_iff.2 fun e he => by simpa using (hgt e he).le
      have hright : right.toList.filter (k < ·.1) = right.toList :=
        filter_eq_self.2 fun e he => by simpa using hgt e he
      rw [if_pos rfl, toList, hleft, hnl, hnr, hright, if_neg (by simp), if_neg (by simp)]
      simp
    · have hall : left.toList.filter (·.1 < k) = left.toList :=
        filter_eq_self.2 fun e he => by simpa using (hlt e he).trans hk
      have hnone : left.toList.filter (k < ·.1) = [] :=
        filter_eq_nil_iff.2 fun e he => by simpa using ((hlt e he).trans hk).le
      rw [if_neg hk.ne', if_neg hk.not_gt, toList_balance, toList, ihr hr, hall, hnone,
        if_pos (by simpa using hk), if_neg (by simpa using hk.le)]
      simp

theorem Sorted.insert (h : Sorted t) : Sorted (insert t k v) := by
  rw [Sorted, toList_insert h]
  refine Keyed.Sorted.append (Keyed.Sorted.filter h _)
    ((Keyed.Sorted.filter h _).cons fun e he => ?_) fun e he e' he' => ?_
  · exact of_decide_eq_true (mem_filter.1 he).2
  · have hlt : e.1 < k := of_decide_eq_true (mem_filter.1 he).2
    rcases mem_cons.1 he' with rfl | he'
    · exact hlt
    · exact hlt.trans (of_decide_eq_true (mem_filter.1 he').2)

theorem Sorted.get_insert (h : Sorted t) [Decidable (k' = k)] :
    get (Tree.insert t k v) k' = if k' = k then some v else get t k' := by
  apply Option.ext
  intro w
  rw [h.insert.get_eq_some, toList_insert h, mem_append, mem_cons, mem_filter,
    mem_filter, Prod.mk.injEq, decide_eq_true_iff, decide_eq_true_iff]
  by_cases hk : k' = k
  · subst hk
    rw [if_pos rfl, Option.some.injEq]
    constructor
    · rintro (⟨-, hlt⟩ | ⟨-, rfl⟩ | ⟨-, hlt⟩)
      · exact absurd hlt (lt_irrefl _)
      · rfl
      · exact absurd hlt (lt_irrefl _)
    · rintro rfl
      exact .inr (.inl ⟨rfl, rfl⟩)
  · rw [if_neg hk, h.get_eq_some]
    constructor
    · rintro (⟨hmem, -⟩ | ⟨heq, -⟩ | ⟨hmem, -⟩)
      · exact hmem
      · exact absurd heq hk
      · exact hmem
    · intro hmem
      rcases lt_or_gt_of_ne hk with hlt | hlt
      · exact .inl ⟨hmem, hlt⟩
      · exact .inr (.inr ⟨hmem, hlt⟩)

theorem toList_remove (h : Sorted t) : (remove t k).toList = t.toList.filter (·.1 ≠ k) := by
  induction t generalizing k with
  | nil => rfl
  | node key value left right ihl ihr =>
    obtain ⟨hl, hr, hlt, hgt⟩ := sorted_node.1 h
    have keepLeft : key ≤ k → left.toList.filter (·.1 ≠ k) = left.toList := fun hle =>
      filter_eq_self.2 fun e he => by simpa using ((hlt e he).trans_le hle).ne
    have keepRight : k ≤ key → right.toList.filter (·.1 ≠ k) = right.toList := fun hle =>
      filter_eq_self.2 fun e he => by simpa using (hle.trans_lt (hgt e he)).ne'
    rw [remove.eq_def]
    dsimp only
    rw [toList, filter_append, filter_cons]
    rcases lt_trichotomy k key with hk | rfl | hk
    · rw [if_pos hk, toList_balance, toList, ihl hl, keepRight hk.le, if_pos (by simpa using hk.ne')]
    · rw [if_neg (lt_irrefl _), if_neg (lt_irrefl _), keepLeft le_rfl, keepRight le_rfl,
        if_neg (by simp)]
      split
      · rfl
      · rw [toList, append_nil]
      · rename_i rightKey rightValue rightLeft rightRight _
        obtain ⟨rest, hrest⟩ := toList_first rightRight
        have hfirst : ∀ e ∈ rest, (first rightKey rightValue rightLeft).1 < e.1 := by
          have := hr
          rw [Sorted, hrest] at this
          exact (pairwise_cons.1 this).1
        rw [toList_balance, toList, ihr hr, hrest, filter_cons, if_neg (by simp),
          filter_eq_self.2 fun e he => by simpa using (hfirst e he).ne']
    · rw [if_neg hk.not_gt, if_pos hk, toList_balance, toList, ihr hr, keepLeft hk.le,
        if_pos (by simpa using hk.ne)]

theorem Sorted.remove (h : Sorted t) : Sorted (remove t k) := by
  rw [Sorted, toList_remove h]
  exact Keyed.Sorted.filter h _

theorem mem_toList_remove (h : Sorted t) :
    (k', v) ∈ (Tree.remove t k).toList ↔ (k', v) ∈ t.toList ∧ k' ≠ k := by
  rw [toList_remove h, mem_filter, decide_eq_true_iff]

theorem Sorted.get_remove (h : Sorted t) [Decidable (k' = k)] :
    get (Tree.remove t k) k' = if k' = k then none else get t k' := by
  apply Option.ext
  intro v
  rw [h.remove.get_eq_some, mem_toList_remove h]
  by_cases hk : k' = k
  · rw [if_pos hk]
    exact iff_of_false (fun h => h.2 hk) (fun h => nomatch h)
  · rw [if_neg hk, h.get_eq_some]
    exact and_iff_left hk

theorem Balanced.insert (h : Balanced t) : Balanced (insert t k v) ∧
    height t ≤ height (Tree.insert t k v) ∧ height (Tree.insert t k v) ≤ height t + 1 := by
  induction t with
  | nil => simp [Tree.insert, Balanced, height]
  | node key value left right ihl ihr =>
    obtain ⟨hl, hr, hlr, hrl⟩ := h
    rw [Tree.insert]
    split_ifs
    · exact ⟨⟨hl, hr, hlr, hrl⟩, le_rfl, Nat.le_succ _⟩
    · obtain ⟨hl', hle, hge⟩ := ihl hl
      obtain ⟨hb, hmin, hmax, heq⟩ := @balanced_balance _ _ _ _ key value hl' hr (by omega) (by omega)
      rw [height]
      exact ⟨hb, by omega, by omega⟩
    · obtain ⟨hr', hle, hge⟩ := ihr hr
      obtain ⟨hb, hmin, hmax, heq⟩ := @balanced_balance _ _ _ _ key value hl hr' (by omega) (by omega)
      rw [height]
      exact ⟨hb, by omega, by omega⟩

theorem Balanced.remove (h : Balanced t) : Balanced (remove t k) ∧
    height (Tree.remove t k) ≤ height t ∧ height t ≤ height (Tree.remove t k) + 1 := by
  induction t generalizing k with
  | nil => exact ⟨trivial, le_rfl, Nat.zero_le _⟩
  | node key value left right ihl ihr =>
    obtain ⟨hl, hr, hlr, hrl⟩ := h
    have hright (k' : κ) (key' : κ) (value' : β) :
        Balanced (balance (.node key' value' left (Tree.remove right k'))) ∧
          height (balance (.node key' value' left (Tree.remove right k'))) ≤
            1 + max (height left) (height right) ∧
          max (height left) (height right) ≤
            height (balance (.node key' value' left (Tree.remove right k'))) := by
      obtain ⟨hr', hle, hge⟩ := @ihr k' hr
      obtain ⟨hb, hmin, hmax, heq⟩ := @balanced_balance _ _ _ _ key' value' hl hr' (by omega) (by omega)
      exact ⟨hb, by omega, by omega⟩
    rw [remove.eq_def, height]
    dsimp only
    split_ifs
    · obtain ⟨hl', hle, hge⟩ := @ihl k hl
      obtain ⟨hb, hmin, hmax, heq⟩ := @balanced_balance _ _ _ _ key value hl' hr (by omega) (by omega)
      exact ⟨hb, by omega, by omega⟩
    · obtain ⟨hb, hmax, hmin⟩ := hright k key value
      exact ⟨hb, hmax, by omega⟩
    · split
      · simp only [height] at *
        exact ⟨hr, by omega, by omega⟩
      · simp only [height] at *
        exact ⟨hl, by omega, by omega⟩
      · obtain ⟨hb, hmax, hmin⟩ := hright _ _ _
        exact ⟨hb, hmax, by omega⟩

end Tree

end Avl
