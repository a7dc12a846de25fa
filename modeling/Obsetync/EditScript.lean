import Mathlib

namespace EditScript
open List

/-- At position `pos` of a sequence, `removed` elements go and `put` takes their place. -/
structure Edit (α : Type) where
  pos : Nat
  removed : Nat
  put : List α

variable {α : Type} {base : List α} {s t : List (Edit α)} {e f : Edit α} {x : α} {n i : Nat}

def Edit.Covers (e : Edit α) (i : Nat) : Prop := e.pos ≤ i ∧ i < e.pos + e.removed

instance (e : Edit α) (i : Nat) : Decidable (e.Covers i) := inferInstanceAs (Decidable (_ ∧ _))

def putAt (s : List (Edit α)) (i : Nat) : List α := (s.filter (·.pos = i)).flatMap Edit.put

def Removes (s : List (Edit α)) (i : Nat) : Prop := ∃ e ∈ s, e.Covers i

instance (s : List (Edit α)) (i : Nat) : Decidable (Removes s i) :=
  inferInstanceAs (Decidable (∃ e ∈ s, _))

/-- What two scripts leave of position `i`: what they put there, and the element unless one of
them removes it. -/
def composeAt (base : List α) (s t : List (Edit α)) (i : Nat) : List α :=
  putAt s i ++ putAt t i ++ if Removes s i ∨ Removes t i then [] else base[i]?.toList

def compose (base : List α) (s t : List (Edit α)) : List α :=
  (List.range (base.length + 1)).flatMap (composeAt base s t)

/-- Edits in order, inside the sequence, with an untouched element between two of them. -/
structure Separated (n : Nat) (s : List (Edit α)) : Prop where
  apart : s.Pairwise fun e f => e.pos + e.removed < f.pos
  bounded : ∀ e ∈ s, e.pos + e.removed ≤ n
  moves : ∀ e ∈ s, e.removed = 0 → e.put ≠ []

theorem Separated.tail (h : Separated n (e :: s)) : Separated n s :=
  ⟨(pairwise_cons.1 h.apart).2, fun f hf => h.bounded f (mem_cons_of_mem _ hf),
    fun f hf => h.moves f (mem_cons_of_mem _ hf)⟩

theorem Separated.cons_from (hs : Separated n s) (he : e.pos + e.removed ≤ n)
    (hm : e.removed = 0 → e.put ≠ []) (hlt : ∀ f ∈ s, e.pos + e.removed + 1 ≤ f.pos) :
    Separated n (e :: s) ∧ ∀ f ∈ e :: s, e.pos ≤ f.pos := by
  refine ⟨⟨pairwise_cons.2 ⟨hlt, hs.apart⟩,
    fun f hf => (mem_cons.1 hf).elim (fun h => h ▸ he) (hs.bounded f),
    fun f hf => (mem_cons.1 hf).elim (fun h => h ▸ hm) (hs.moves f)⟩, fun f hf => ?_⟩
  rcases mem_cons.1 hf with rfl | hf
  · exact le_refl _
  · have := hlt f hf
    omega

theorem Separated.eq_of_meet (h : Separated n s) (he : e ∈ s) (hf : f ∈ s)
    (hle : e.pos ≤ f.pos) (hlt : f.pos ≤ e.pos + e.removed) : e = f := by
  induction s with
  | nil => cases he
  | cons g s ih =>
    have hg := (pairwise_cons.1 h.apart).1
    rcases mem_cons.1 he with rfl | hes
    · rcases mem_cons.1 hf with rfl | hfs
      · rfl
      · have := hg _ hfs
        omega
    · rcases mem_cons.1 hf with rfl | hfs
      · have := hg _ hes
        omega
      · exact ih h.tail hes hfs

theorem putAt_eq_nil (h : ∀ e ∈ s, e.pos ≠ i) : putAt s i = [] := by
  rw [putAt, filter_eq_nil_iff.2 (by simpa using h), flatMap_nil]

theorem Separated.putAt_eq (h : Separated n s) (he : e ∈ s) : putAt s e.pos = e.put := by
  induction s with
  | nil => cases he
  | cons g s ih =>
    have hg := (pairwise_cons.1 h.apart).1
    rcases mem_cons.1 he with rfl | he
    · have hs : putAt s e.pos = [] := putAt_eq_nil fun f hf => by
        have := hg _ hf
        omega
      rw [putAt] at hs ⊢
      rw [filter_cons_of_pos (by simp), flatMap_cons, hs, append_nil]
    · have hne : g.pos ≠ e.pos := by
        have := hg _ he
        omega
      rw [putAt, filter_cons_of_neg (by simpa using hne)]
      exact ih h.tail he

/-- The edits of two scripts that never claim the same position. An edit that removes nothing
claims the position it stands at. -/
def Disjoint (s t : List (Edit α)) : Prop :=
  ∀ e ∈ s, ∀ f ∈ t, e.pos + max e.removed 1 ≤ f.pos ∨ f.pos + max f.removed 1 ≤ e.pos

theorem Disjoint.symm (h : Disjoint s t) : Disjoint t s := fun e he f hf => (h f hf e he).symm

/-- An edit that puts elements before an existing one and removes none. -/
def InnerInsert (n : Nat) (e : Edit α) : Prop := e.removed = 0 ∧ e.pos < n

instance (n : Nat) (e : Edit α) : Decidable (InnerInsert n e) := inferInstanceAs (Decidable (_ ∧ _))

/-- Position `i` as a walk leaves it that takes every edit to consume at least one element. -/
def walkAt (base : List α) (s t : List (Edit α)) (i : Nat) : List α :=
  putAt s i ++ putAt t i ++
    if (∃ e ∈ s ++ t, e.pos = i) ∨ Removes s i ∨ Removes t i then [] else base[i]?.toList

theorem walkAt_of_nothing (hs : ∀ e ∈ s ++ t, e.pos ≠ i) (hr : ¬ Removes s i) (ht : ¬ Removes t i) :
    walkAt base s t i = base[i]?.toList := by
  rw [walkAt, putAt_eq_nil fun e he => hs e (mem_append_left _ he),
    putAt_eq_nil fun e he => hs e (mem_append_right _ he), if_neg]
  · rfl
  · rintro (⟨e, he, hi⟩ | h | h)
    · exact hs e he hi
    · exact hr h
    · exact ht h

theorem walkAt_of_put (he : e ∈ s) (hs : Separated n s) (ht : ∀ f ∈ t, f.pos ≠ e.pos) :
    walkAt base s t e.pos = e.put := by
  rw [walkAt, hs.putAt_eq he, putAt_eq_nil ht,
    if_pos (.inl ⟨e, mem_append_left _ he, rfl⟩), append_nil, append_nil]

theorem walkAt_of_inside (hs : ∀ f ∈ s, f.pos ≠ i) (ht : ∀ f ∈ t, f.pos ≠ i)
    (hr : Removes s i ∨ Removes t i) : walkAt base s t i = [] := by
  rw [walkAt, putAt_eq_nil hs, putAt_eq_nil ht, if_pos (.inr hr)]
  rfl

theorem walkAt_comm (hd : Disjoint s t) : walkAt base s t i = walkAt base t s i := by
  have hp : putAt s i ++ putAt t i = putAt t i ++ putAt s i := by
    by_cases h : ∃ e ∈ s, e.pos = i
    · obtain ⟨e, he, hi⟩ := h
      rw [putAt_eq_nil (s := t) fun f hf hfi => by have := hd e he f hf; omega]
      simp
    · push Not at h
      rw [putAt_eq_nil h]
      simp
  have hc : ((∃ e ∈ s ++ t, e.pos = i) ∨ Removes s i ∨ Removes t i) ↔
      (∃ e ∈ t ++ s, e.pos = i) ∨ Removes t i ∨ Removes s i := by
    simp only [mem_append, or_comm]
  rw [walkAt, walkAt, hp, if_congr hc rfl rfl]

theorem removes_of_mem (he : e ∈ s ++ t) (hc : e.Covers i) : Removes s i ∨ Removes t i :=
  (mem_append.1 he).imp (fun h => ⟨e, h, hc⟩) (fun h => ⟨e, h, hc⟩)

theorem not_removes_of_insert (hs : Separated n s) (ht : Separated n t) (hd : Disjoint s t)
    (he : e ∈ s ++ t) (hr : e.removed = 0) : ¬ (Removes s e.pos ∨ Removes t e.pos) := by
  have hown {u : List (Edit α)} (hu : Separated n u) (heu : e ∈ u) : ¬ Removes u e.pos := by
    rintro ⟨f, hf, hle, hlt⟩
    have := hu.eq_of_meet hf heu hle hlt.le
    subst this
    omega
  have hother {u v : List (Edit α)} (huv : Disjoint u v) (heu : e ∈ u) : ¬ Removes v e.pos := by
    rintro ⟨f, hf, hle, hlt⟩
    have := huv e heu f hf
    omega
  rcases mem_append.1 he with hes | het
  · exact not_or.2 ⟨hown hs hes, hother hd hes⟩
  · exact not_or.2 ⟨hother hd.symm het, hown ht het⟩

theorem walkAt_eq_composeAt (hn : ∀ e ∈ s ++ t, e.pos = i → ¬ InnerInsert base.length e) :
    walkAt base s t i = composeAt base s t i := by
  rw [walkAt, composeAt]
  congr 1
  by_cases hp : ∃ e ∈ s ++ t, e.pos = i
  · rw [if_pos (.inl hp)]
    obtain ⟨e, he, rfl⟩ := hp
    by_cases hr : e.removed = 0
    · have hle : base.length ≤ e.pos := by
        by_contra hlt
        exact hn e he rfl ⟨hr, by omega⟩
      rw [getElem?_eq_none hle, Option.toList_none, ite_self]
    · rw [if_pos (removes_of_mem he ⟨le_refl _, by omega⟩)]
  · simp only [hp, false_or]

theorem walkAt_length_of_insert (hs : Separated base.length s) (ht : Separated base.length t)
    (hd : Disjoint s t) (he : e ∈ s ++ t) (hi : InnerInsert base.length e) :
    (walkAt base s t e.pos).length + 1 = (composeAt base s t e.pos).length := by
  rw [walkAt, if_pos (.inl ⟨e, he, rfl⟩), composeAt,
    if_neg (not_removes_of_insert hs ht hd he hi.1), getElem?_eq_getElem hi.2]
  simp [Nat.add_assoc]

def walkTo (base : List α) (s t : List (Edit α)) (k : Nat) : List α :=
  (List.range k).flatMap (walkAt base s t)

def walk (base : List α) (s t : List (Edit α)) : List α := walkTo base s t (base.length + 1)

@[simp] theorem walkTo_zero : walkTo base s t 0 = [] := rfl

theorem walkTo_succ : walkTo base s t (i + 1) = walkTo base s t i ++ walkAt base s t i := by
  simp [walkTo, range_succ]

theorem walkTo_comm (hd : Disjoint s t) : walkTo base s t i = walkTo base t s i :=
  flatMap_congr fun _ _ => walkAt_comm hd

def Boundary (s t : List (Edit α)) (i : Nat) : Prop :=
  ∀ e ∈ s ++ t, e.pos < i → e.pos + e.removed ≤ i

theorem Boundary.keep (hb : Boundary s t i) (h : ∀ e ∈ s ++ t, e.pos ≠ i) :
    Boundary s t (i + 1) ∧ walkAt base s t i = base[i]?.toList := by
  constructor
  · intro e he hlt
    have := h e he
    have := hb e he (by omega)
    omega
  · have hr : ∀ e ∈ s ++ t, ¬ e.Covers i := by
      rintro e he ⟨hle, hlt⟩
      have := hb e he (by have := h e he; omega)
      omega
    refine walkAt_of_nothing h ?_ ?_
    · rintro ⟨e, he, hc⟩
      exact hr e (mem_append_left _ he) hc
    · rintro ⟨e, he, hc⟩
      exact hr e (mem_append_right _ he) hc

theorem Boundary.symm (hb : Boundary s t i) : Boundary t s i := fun e he =>
  hb e (mem_append.2 (mem_append.1 he).symm)

theorem Boundary.put (hs : Separated n s) (hd : Disjoint s t) (he : e ∈ s) :
    Boundary s t (e.pos + max e.removed 1) ∧
      walkTo base s t (e.pos + max e.removed 1) = walkTo base s t e.pos ++ e.put := by
  constructor
  · intro f hf hlt
    rcases mem_append.1 hf with hf | hf
    · by_cases hle : e.pos ≤ f.pos
      · by_cases hm : f.pos ≤ e.pos + e.removed
        · have := hs.eq_of_meet he hf hle hm
          subst this
          omega
        · omega
      · by_contra hr
        have := hs.eq_of_meet hf he (by omega) (by omega)
        subst this
        omega
    · have := hd e he f hf
      omega
  · have hstep (k : Nat) (hk : k < max e.removed 1) :
        walkTo base s t (e.pos + (k + 1)) = walkTo base s t e.pos ++ e.put := by
      induction k with
      | zero =>
        rw [walkTo_succ, walkAt_of_put he hs]
        intro f hf hfe
        have := hd e he f hf
        omega
      | succ k ih =>
        rw [← Nat.add_assoc, walkTo_succ, ih (by omega), walkAt_of_inside, append_nil]
        · intro f hf hfe
          have := hs.eq_of_meet he hf (by omega) (by omega)
          subst this
          omega
        · intro f hf hfe
          have := hd e he f hf
          omega
        · exact .inl ⟨e, he, by omega, by omega⟩
    obtain ⟨k, hk⟩ : ∃ k, max e.removed 1 = k + 1 := ⟨max e.removed 1 - 1, by omega⟩
    rw [hk]
    exact hstep k (by omega)

theorem walk_eq_walkTo : walk base s t =
    walkTo base s t base.length ++ putAt s base.length ++ putAt t base.length := by
  rw [walk, walkTo_succ, walkAt, getElem?_eq_none (le_refl _)]
  simp

theorem mem_putAt (h : x ∈ putAt s i) : ∃ e ∈ s, x ∈ e.put := by
  obtain ⟨e, he, hx⟩ := mem_flatMap.1 h
  exact ⟨e, mem_of_mem_filter he, hx⟩

theorem mem_put_append [Decidable c]
    (h : x ∈ putAt s i ++ putAt t i ++ if c then [] else base[i]?.toList) :
    x ∈ base ∨ ∃ e ∈ s ++ t, x ∈ e.put := by
  rcases mem_append.1 h with h | h
  · obtain ⟨e, he, hx⟩ : ∃ e ∈ s ++ t, x ∈ e.put := by
      rcases mem_append.1 h with h | h
      · obtain ⟨e, he, hx⟩ := mem_putAt h
        exact ⟨e, mem_append_left _ he, hx⟩
      · obtain ⟨e, he, hx⟩ := mem_putAt h
        exact ⟨e, mem_append_right _ he, hx⟩
    exact .inr ⟨e, he, hx⟩
  · split_ifs at h
    · cases h
    · exact .inl (mem_of_getElem? (Option.mem_toList.1 h))

theorem mem_walk (h : x ∈ walk base s t) : x ∈ base ∨ ∃ e ∈ s ++ t, x ∈ e.put := by
  obtain ⟨i, -, hx⟩ := mem_flatMap.1 h
  exact mem_put_append hx

theorem mem_compose (h : x ∈ compose base s t) : x ∈ base ∨ ∃ e ∈ s ++ t, x ∈ e.put := by
  obtain ⟨i, -, hx⟩ := mem_flatMap.1 h
  exact mem_put_append hx

theorem walk_eq_compose (hn : ∀ e ∈ s ++ t, ¬ InnerInsert base.length e) :
    walk base s t = compose base s t :=
  flatMap_congr fun _ _ => walkAt_eq_composeAt fun e he _ => hn e he

theorem walk_length_lt (hs : Separated base.length s) (ht : Separated base.length t)
    (hd : Disjoint s t) (he : e ∈ s ++ t) (hi : InnerInsert base.length e) :
    (walk base s t).length < (compose base s t).length := by
  have hle (i : Nat) : (walkAt base s t i).length ≤ (composeAt base s t i).length := by
    by_cases hn : ∀ f ∈ s ++ t, f.pos = i → ¬ InnerInsert base.length f
    · rw [walkAt_eq_composeAt hn]
    · push Not at hn
      obtain ⟨f, hf, rfl, hif⟩ := hn
      have := walkAt_length_of_insert hs ht hd hf hif
      omega
  have hlt := walkAt_length_of_insert hs ht hd he hi
  have hpos := hi.2
  rw [walk, walkTo, compose, length_flatMap, length_flatMap]
  exact sum_lt_sum _ _ (fun i _ => hle i) ⟨e.pos, mem_range.2 (by omega), by omega⟩

theorem walk_ne_nil (hs : Separated base.length s) (ht : Separated base.length t)
    (hd : Disjoint s t) (he : e ∈ s ++ t) (hi : InnerInsert base.length e) :
    walk base s t ≠ [] := by
  wlog hes : e ∈ s generalizing s t
  · have het : e ∈ t := (mem_append.1 he).resolve_left hes
    rw [walk, walkTo_comm hd]
    exact this ht hs hd.symm (mem_append_left _ het) het
  have hnt : ∀ f ∈ t, f.pos ≠ e.pos := fun f hf hfe => by
    have := hd e hes f hf
    omega
  obtain ⟨x, hx⟩ := exists_mem_of_ne_nil _ (hs.moves e hes hi.1)
  refine ne_nil_of_mem (mem_flatMap.2 ⟨e.pos, mem_range.2 ?_, ?_⟩) (a := x)
  · have := hi.2
    omega
  · rwa [walkAt_of_put hes hs hnt]

def applyFrom (base : List α) : Nat → List (Edit α) → List α
  | i, [] => base.drop i
  | i, e :: s => (base.drop i).take (e.pos - i) ++ e.put ++ applyFrom base (e.pos + e.removed) s

theorem applyFrom_skip (h : ∀ e ∈ s, i + len ≤ e.pos) :
    applyFrom base i s = (base.drop i).take len ++ applyFrom base (i + len) s := by
  cases s with
  | nil => rw [applyFrom, applyFrom, ← drop_drop, take_append_drop]
  | cons e s =>
    have hle := h e mem_cons_self
    have hsplit : (base.drop i).take (e.pos - i) =
        (base.drop i).take len ++ (base.drop (i + len)).take (e.pos - (i + len)) := by
      rw [← drop_drop, show e.pos - i = len + (e.pos - (i + len)) by omega, take_add]
    rw [applyFrom, applyFrom, hsplit, append_assoc, append_assoc, append_assoc]

theorem putAt_nil : putAt ([] : List (Edit α)) i = [] := rfl

theorem composeAt_before (h : ∀ e ∈ s, i < e.pos) : composeAt base s [] i = base[i]?.toList := by
  rw [composeAt, putAt_eq_nil fun e he => (h e he).ne', putAt_nil, if_neg]
  · rfl
  · rintro (⟨e, he, hle, -⟩ | ⟨e, he, -⟩)
    · exact (h e he).not_ge hle
    · cases he

theorem composeAt_behind (h : e.pos < i) (h' : e.pos + e.removed ≤ i) :
    composeAt base (e :: s) [] i = composeAt base s [] i := by
  have hput : putAt (e :: s) i = putAt s i := by
    rw [putAt, filter_cons_of_neg (by simpa using h.ne), putAt]
  have hremoves : Removes (e :: s) i ↔ Removes s i := by
    constructor
    · rintro ⟨f, hf, hc⟩
      rcases mem_cons.1 hf with rfl | hf
      · exact (hc.2.not_ge h').elim
      · exact ⟨f, hf, hc⟩
    · rintro ⟨f, hf, hc⟩
      exact ⟨f, mem_cons_of_mem _ hf, hc⟩
  rw [composeAt, composeAt, hput, if_congr (or_congr hremoves Iff.rfl) rfl rfl]

theorem flatMap_range'_before (h : ∀ e ∈ s, i + len ≤ e.pos) :
    (List.range' i len).flatMap (composeAt base s []) = (base.drop i).take len := by
  induction len generalizing i with
  | zero => rfl
  | succ len ih =>
    have hnext : ∀ e ∈ s, i + 1 + len ≤ e.pos := fun e he => by
      have := h e he
      omega
    rw [range'_succ, flatMap_cons, ih hnext, composeAt_before fun e he => by have := h e he; omega]
    cases hget : base[i]? with
    | none =>
      have hlen := List.getElem?_eq_none_iff.1 hget
      rw [drop_eq_nil_of_le hlen, drop_eq_nil_of_le (by omega)]
      simp
    | some a =>
      obtain ⟨hlt, rfl⟩ := List.getElem?_eq_some_iff.1 hget
      rw [drop_eq_getElem_cons hlt]
      rfl

theorem flatMap_range'_edit (hs : Separated n (e :: s)) (hlen : e.removed ≤ len) :
    (List.range' e.pos (len + 1)).flatMap (composeAt base (e :: s) []) =
      e.put ++ (List.range' (e.pos + e.removed) (len + 1 - e.removed)).flatMap
        (composeAt base s []) := by
  have hlater := (pairwise_cons.1 hs.apart).1
  have hhere : putAt (e :: s) e.pos = e.put := hs.putAt_eq mem_cons_self
  by_cases hr : e.removed = 0
  · have hkeep : ¬ (Removes (e :: s) e.pos ∨ Removes ([] : List (Edit α)) e.pos) := by
      rintro (⟨f, hf, hle, hlt⟩ | ⟨f, hf, -⟩)
      · rcases mem_cons.1 hf with rfl | hf
        · omega
        · have := hlater f hf
          omega
      · cases hf
    have hfirst : composeAt base (e :: s) [] e.pos = e.put ++ composeAt base s [] e.pos := by
      rw [composeAt_before (s := s) fun f hf => by have := hlater f hf; omega, composeAt, hhere,
        putAt_nil, if_neg hkeep, append_nil]
    have hrest : (List.range' (e.pos + 1) len).flatMap (composeAt base (e :: s) []) =
        (List.range' (e.pos + 1) len).flatMap (composeAt base s []) := by
      apply flatMap_congr
      intro k hk
      have := (mem_range'_1.1 hk).1
      exact composeAt_behind (by omega) (by omega)
    rw [hr, Nat.sub_zero, range'_succ, flatMap_cons, hfirst, hrest, append_assoc]
    rfl
  · obtain ⟨r, hr'⟩ : ∃ r, e.removed = r + 1 := ⟨e.removed - 1, by omega⟩
    have hfirst : composeAt base (e :: s) [] e.pos = e.put := by
      rw [composeAt, hhere, putAt_nil,
        if_pos (.inl ⟨e, mem_cons_self, le_refl _, by omega⟩), append_nil, append_nil]
    have hinside : (List.range' (e.pos + 1) r).flatMap (composeAt base (e :: s) []) = [] := by
      rw [flatMap_eq_nil_iff]
      intro k hk
      have hk := mem_range'_1.1 hk
      have hput : putAt (e :: s) k = [] := putAt_eq_nil fun f hf hfk => by
        rcases mem_cons.1 hf with rfl | hf
        · omega
        · have := hlater f hf
          omega
      rw [composeAt, hput, putAt_nil, if_pos (.inl ⟨e, mem_cons_self, by omega, by omega⟩)]
      rfl
    have hrest : (List.range' (e.pos + e.removed) (len + 1 - e.removed)).flatMap
          (composeAt base (e :: s) []) =
        (List.range' (e.pos + e.removed) (len + 1 - e.removed)).flatMap (composeAt base s []) := by
      apply flatMap_congr
      intro k hk
      have := (mem_range'_1.1 hk).1
      exact composeAt_behind (by omega) (by omega)
    have hsplit : List.range' e.pos (len + 1) = e.pos :: (List.range' (e.pos + 1) r ++
        List.range' (e.pos + e.removed) (len + 1 - e.removed)) := by
      rw [show e.pos + e.removed = e.pos + 1 + 1 * r by omega, range'_append,
        show r + (len + 1 - e.removed) = len by omega, range'_succ]
    rw [hsplit, flatMap_cons, flatMap_append, hfirst, hinside, hrest, nil_append]

theorem compose_nil (hs : Separated base.length s) : compose base s [] = applyFrom base 0 s := by
  have hfrom (i : Nat) (hi : i ≤ base.length) (hpos : ∀ e ∈ s, i ≤ e.pos) :
      (List.range' i (base.length + 1 - i)).flatMap (composeAt base s []) = applyFrom base i s := by
    induction s generalizing i with
    | nil =>
      rw [flatMap_range'_before (fun _ he => by cases he), applyFrom, take_of_length_le (by simp; omega)]
    | cons e s ih =>
      have hle := hpos e mem_cons_self
      have hbound := hs.bounded e mem_cons_self
      have hlater := (pairwise_cons.1 hs.apart).1
      have hsplit : List.range' i (base.length + 1 - i) =
          List.range' i (e.pos - i) ++ List.range' e.pos (base.length - e.pos + 1) := by
        rw [show List.range' e.pos (base.length - e.pos + 1) =
          List.range' (i + 1 * (e.pos - i)) (base.length - e.pos + 1) by congr 1; omega,
          range'_append]
        congr 1
        omega
      have hbefore : ∀ f ∈ e :: s, i + (e.pos - i) ≤ f.pos := by
        intro f hf
        rcases mem_cons.1 hf with rfl | hf
        · omega
        · have := hlater f hf
          omega
      rw [hsplit, flatMap_append, flatMap_range'_before hbefore,
        flatMap_range'_edit hs (by omega), applyFrom, append_assoc,
        show base.length - e.pos + 1 - e.removed = base.length + 1 - (e.pos + e.removed) by omega,
        ih hs.tail _ hbound fun f hf => (hlater f hf).le]
  rw [compose, range_eq_range']
  exact hfrom 0 (Nat.zero_le _) fun _ _ => Nat.zero_le _

end EditScript
