import Mathlib

namespace Segmentation
open List

variable {α : Type} {o l : List α} {ls pre post : List (List α)} {xs ys : List α} {x : α}

/-- A greedy way to cut a sequence: `fits o x` says that the open segment `o` may take the next
element `x`, and `closes o` that `o` ends with its last element. -/
structure Rule (α : Type) where
  fits : List α → α → Bool
  closes : List α → Bool

variable {r : Rule α}

def Rule.settle (r : Rule α) (o : List α) : List (List α) × List α :=
  if r.closes o then ([o], []) else ([], o)

def Rule.step (r : Rule α) (o : List α) (x : α) : List (List α) × List α :=
  if o ≠ [] ∧ r.fits o x = false then (o :: (r.settle [x]).1, (r.settle [x]).2)
  else r.settle (o ++ [x])

/-- The segments that end while `xs` is read from the open segment `o`, and the segment that is
open behind it. -/
def Rule.run (r : Rule α) : List α → List α → List (List α) × List α
  | o, [] => ([], o)
  | o, x :: xs => ((r.step o x).1 ++ (r.run (r.step o x).2 xs).1, (r.run (r.step o x).2 xs).2)

def unfinished (o : List α) : List (List α) := if o = [] then [] else [o]

def Rule.cut (r : Rule α) (o xs : List α) : List (List α) :=
  (r.run o xs).1 ++ unfinished (r.run o xs).2

theorem Rule.cut_nil : r.cut o [] = unfinished o := rfl

theorem Rule.cut_cons : r.cut o (x :: xs) = (r.step o x).1 ++ r.cut (r.step o x).2 xs := by
  simp only [cut, run, append_assoc]

theorem Rule.run_append : r.run o (xs ++ ys) =
    ((r.run o xs).1 ++ (r.run (r.run o xs).2 ys).1, (r.run (r.run o xs).2 ys).2) := by
  induction xs generalizing o with
  | nil => rfl
  | cons x xs ih => simp only [cons_append, run, ih, append_assoc]

theorem Rule.cut_append : r.cut o (xs ++ ys) = (r.run o xs).1 ++ r.cut (r.run o xs).2 ys := by
  simp only [cut, run_append, append_assoc]

theorem Rule.step_cases (r : Rule α) (o : List α) (x : α) :
    (o ≠ [] ∧ r.fits o x = false ∧ r.step o x = (o :: (r.step [] x).1, (r.step [] x).2)) ∨
    ((o ≠ [] → r.fits o x = true) ∧ r.closes (o ++ [x]) = true ∧ r.step o x = ([o ++ [x]], [])) ∨
    ((o ≠ [] → r.fits o x = true) ∧ r.closes (o ++ [x]) = false ∧ r.step o x = ([], o ++ [x])) := by
  by_cases ho : o ≠ [] ∧ r.fits o x = false
  · exact .inl ⟨ho.1, ho.2, by simp [step, ho]⟩
  · have hf : o ≠ [] → r.fits o x = true := by simpa using ho
    right
    by_cases hc : r.closes (o ++ [x]) = true
    · exact .inl ⟨hf, hc, by rw [step, if_neg ho, settle, if_pos hc]⟩
    · exact .inr ⟨hf, Bool.eq_false_iff.2 hc, by rw [step, if_neg ho, settle, if_neg hc]⟩

theorem Rule.flatten_cut : (r.cut o xs).flatten = o ++ xs := by
  induction xs generalizing o with
  | nil =>
    rw [cut_nil, unfinished]
    split_ifs with ho
    · rw [ho]
      rfl
    · simp
  | cons x xs ih =>
    have hnil : (r.step [] x).1.flatten ++ (r.step [] x).2 = [x] := by
      rcases r.step_cases [] x with ⟨h, -⟩ | ⟨-, -, h⟩ | ⟨-, -, h⟩
      · exact absurd rfl h
      · rw [h]
        rfl
      · rw [h]
        rfl
    rw [cut_cons, flatten_append, ih, ← append_assoc]
    rcases r.step_cases o x with ⟨-, -, h⟩ | ⟨-, -, h⟩ | ⟨-, -, h⟩
    · rw [h, flatten_cons, append_assoc o, hnil, append_assoc]
      rfl
    · rw [h]
      simp
    · rw [h]
      simp

theorem Rule.ne_nil_of_mem_cut (h : l ∈ r.cut o xs) : l ≠ [] := by
  induction xs generalizing o with
  | nil =>
    rw [cut_nil, unfinished] at h
    split_ifs at h with ho
    · cases h
    · rwa [mem_singleton.1 h]
  | cons x xs ih =>
    rw [cut_cons] at h
    rcases mem_append.1 h with h | h
    · have hsettle (o' : List α) (hm : l ∈ (r.settle (o' ++ [x])).1) : l ≠ [] := by
        rw [settle] at hm
        split_ifs at hm
        · rw [mem_singleton.1 hm]
          simp
        · cases hm
      rw [step] at h
      split_ifs at h with ho
      · rcases mem_cons.1 h with rfl | h
        · exact ho.1
        · exact hsettle [] h
      · exact hsettle o h
    · exact ih h

theorem Rule.cut_of_not_fits (ho : o ≠ []) (h : ∀ x ∈ ys.head?, r.fits o x = false) :
    r.cut o ys = o :: r.cut [] ys := by
  cases ys with
  | nil => simp [cut_nil, unfinished, ho]
  | cons x xs =>
    rcases r.step_cases o x with ⟨-, -, hs⟩ | ⟨hf, -⟩ | ⟨hf, -⟩
    · rw [cut_cons, cut_cons, hs]
      rfl
    · exact absurd (hf ho) (by simp [h x rfl])
    · exact absurd (hf ho) (by simp [h x rfl])

/-- Reading `l` into the open segment `o` keeps it one segment. -/
def Rule.Whole (r : Rule α) (o l : List α) : Prop :=
  r.run o l = if r.closes (o ++ l) then ([o ++ l], []) else ([], o ++ l)

/-- The segment `l` ends where it does when `ys` follows it. -/
def Rule.Ends (r : Rule α) (l ys : List α) : Prop :=
  r.closes l = true ∨ ∀ x ∈ ys.head?, r.fits l x = false

theorem Rule.cut_eq_cons (hc : o ≠ [] → r.closes o = false) (h : r.cut o xs = l :: ls) :
    ∃ l', l = o ++ l' ∧ xs = l' ++ ls.flatten ∧ r.cut [] ls.flatten = ls ∧
      r.Whole o l' ∧ r.Ends l ls.flatten := by
  induction xs generalizing o with
  | nil =>
    rw [cut_nil, unfinished] at h
    split_ifs at h with ho
    obtain ⟨rfl, rfl⟩ := List.cons.inj h
    refine ⟨[], (append_nil _).symm, rfl, rfl, ?_, .inr fun x hx => by cases hx⟩
    simp [Whole, run, hc ho]
  | cons x xs ih =>
    rcases r.step_cases o x with ⟨ho, hf, hs⟩ | ⟨-, hcl, hs⟩ | ⟨-, hcl, hs⟩
    · rw [cut_cons, hs, cons_append, ← cut_cons] at h
      obtain ⟨rfl, rfl⟩ := List.cons.inj h
      refine ⟨[], (append_nil _).symm, ?_, ?_, ?_, .inr ?_⟩
      · rw [flatten_cut]
        rfl
      · rw [flatten_cut]
        rfl
      · simp [Whole, run, hc ho]
      · rw [flatten_cut]
        intro y hy
        cases hy
        exact hf
    · rw [cut_cons, hs, singleton_append] at h
      obtain ⟨rfl, rfl⟩ := List.cons.inj h
      refine ⟨[x], rfl, ?_, ?_, ?_, .inl hcl⟩
      · rw [flatten_cut]
        rfl
      · rw [flatten_cut]
        rfl
      · simp [Whole, run, hs, hcl]
    · rw [cut_cons, hs, nil_append] at h
      obtain ⟨l', rfl, rfl, hcut, hw, he⟩ := ih (fun _ => hcl) h
      refine ⟨x :: l', append_assoc _ _ _, rfl, hcut, ?_, he⟩
      rw [Whole, append_assoc] at hw
      rw [Whole, run, hs]
      simp only [nil_append]
      rw [hw]
      rfl

theorem Rule.cut_append_of_ends (hl : l ≠ []) (hw : r.Whole [] l) (he : r.Ends l ys) :
    r.cut [] (l ++ ys) = l :: r.cut [] ys := by
  rw [Whole, nil_append] at hw
  rw [cut_append, hw]
  split_ifs with hc
  · rfl
  · exact cut_of_not_fits hl (he.resolve_left hc)

theorem Rule.ends_of_cut_append (hw : r.Whole [] l) (h : r.cut [] (l ++ ys) = l :: ls) :
    r.Ends l ys := by
  rw [Whole, nil_append] at hw
  by_cases hc : r.closes l = true
  · exact .inl hc
  right
  intro x hx
  rw [cut_append, hw, if_neg hc, nil_append] at h
  cases ys with
  | nil => cases hx
  | cons y ys =>
    cases hx
    by_contra hf
    have hcut (hle : (r.step l x).1 ++ r.cut (r.step l x).2 ys = l :: ls) : False := by
      rcases r.step_cases l x with ⟨-, hf', -⟩ | ⟨-, -, hs⟩ | ⟨-, hcl, hs⟩
      · exact hf hf'
      · rw [hs] at hle
        have := congrArg List.length (List.cons.inj hle).1
        simp at this
      · rw [hs, nil_append] at hle
        obtain ⟨l', hl', -⟩ := cut_eq_cons (fun _ => hcl) hle
        have := congrArg List.length hl'
        simp at this
    rw [cut_cons] at h
    exact hcut h

theorem Rule.whole_of_cut (h : r.cut [] xs = l :: ls) :
    xs = l ++ ls.flatten ∧ r.cut [] ls.flatten = ls ∧ r.Whole [] l ∧ r.Ends l ls.flatten := by
  obtain ⟨l', rfl, hxs, hcut, hw, he⟩ := cut_eq_cons (fun h => absurd rfl h) h
  exact ⟨hxs, hcut, hw, he⟩

theorem Rule.cut_suffix (h : r.cut [] xs = pre ++ post) :
    xs = pre.flatten ++ post.flatten ∧ r.cut [] post.flatten = post := by
  induction pre generalizing xs with
  | nil =>
    rw [nil_append] at h
    have hxs : post.flatten = xs := h ▸ flatten_cut
    rw [hxs]
    exact ⟨rfl, h⟩
  | cons l pre ih =>
    obtain ⟨rfl, hcut, -⟩ := whole_of_cut h
    obtain ⟨hxs, hpost⟩ := ih hcut
    exact ⟨by rw [hxs, flatten_cons, append_assoc], hpost⟩

/-- The first segments of a sequence stay the first segments when what follows them is replaced,
exactly if the last of them still ends there. -/
theorem Rule.cut_replace (h : r.cut [] xs = pre ++ l :: post) (ys : List α) :
    r.cut [] (pre.flatten ++ l ++ ys) = pre ++ l :: r.cut [] ys ↔ r.Ends l ys := by
  induction pre generalizing xs with
  | nil =>
    obtain ⟨-, -, hw, -⟩ := whole_of_cut h
    have hl : l ≠ [] := ne_nil_of_mem_cut (by rw [h]; exact mem_cons_self)
    constructor
    · intro hcut
      exact ends_of_cut_append hw hcut
    · intro he
      exact cut_append_of_ends hl hw he
  | cons p pre ih =>
    rw [cons_append] at h
    obtain ⟨-, hcut, hw, he⟩ := whole_of_cut h
    have hp : p ≠ [] := ne_nil_of_mem_cut (by rw [h]; exact mem_cons_self)
    have hne : pre.flatten ++ l ≠ [] := by
      have hl : l ≠ [] := ne_nil_of_mem_cut (by rw [h]; simp)
      simp [hl]
    have hends : r.Ends p (pre.flatten ++ l ++ ys) := by
      rw [Ends, head?_append_of_ne_nil _ hne]
      rwa [Ends, flatten_append, flatten_cons, ← append_assoc, head?_append_of_ne_nil _ hne] at he
    rw [flatten_cons, append_assoc, append_assoc, ← append_assoc pre.flatten,
      cut_append_of_ends hp hw hends, cons_append, cons_inj_right]
    exact ih hcut

theorem Rule.cut_append_of_closed (h : (r.run [] xs).2 = [] ∨ ys = []) :
    r.cut [] (xs ++ ys) = r.cut [] xs ++ r.cut [] ys := by
  rcases h with h | rfl
  · rw [cut_append, h]
    simp [cut, h, unfinished]
  · rw [append_nil]
    exact (append_nil _).symm

theorem Rule.infix_of_mem_cut (h : l ∈ r.cut [] xs) : l <:+: xs := by
  obtain ⟨s, t, hst⟩ := append_of_mem h
  have hflat := @flatten_cut _ [] xs r
  rw [hst, flatten_append, flatten_cons, nil_append, ← append_assoc] at hflat
  exact ⟨s.flatten, t.flatten, hflat⟩

theorem Rule.forall_cut {P : List α → Prop} (hone : ∀ x ∈ xs, P [x])
    (hstep : ∀ o, ∀ x ∈ xs, P o → r.fits o x = true → P (o ++ [x])) (ho : o ≠ [] → P o) :
    ∀ l ∈ r.cut o xs, P l := by
  induction xs generalizing o with
  | nil =>
    intro l hl
    rw [cut_nil, unfinished] at hl
    split_ifs at hl with hnil
    · cases hl
    · rw [mem_singleton.1 hl]
      exact ho hnil
  | cons x xs ih =>
    have hx := hone x mem_cons_self
    have hrec (o : List α) (ho : o ≠ [] → P o) : ∀ l ∈ r.cut o xs, P l :=
      ih (fun y hy => hone y (mem_cons_of_mem _ hy))
        (fun o y hy => hstep o y (mem_cons_of_mem _ hy)) ho
    have hsettle (o : List α) (hP : P o) : (∀ l ∈ (r.settle o).1, P l) ∧
        ((r.settle o).2 ≠ [] → P (r.settle o).2) := by
      rw [settle]
      split_ifs
      · exact ⟨fun l hl => mem_singleton.1 hl ▸ hP, fun h => absurd rfl h⟩
      · exact ⟨fun l hl => absurd hl not_mem_nil, fun _ => hP⟩
    have hstep' : (∀ l ∈ (r.step o x).1, P l) ∧ ((r.step o x).2 ≠ [] → P (r.step o x).2) := by
      rw [step]
      split_ifs with hf
      · obtain ⟨hfirst, hsecond⟩ := hsettle [x] hx
        refine ⟨fun l hl => ?_, hsecond⟩
        rcases mem_cons.1 hl with rfl | hl
        · exact ho hf.1
        · exact hfirst l hl
      · apply hsettle
        by_cases hnil : o = []
        · rw [hnil]
          exact hx
        · have hfit : r.fits o x = true := by
            rw [not_and, Bool.not_eq_false] at hf
            exact hf hnil
          exact hstep o x mem_cons_self (ho hnil) hfit
    intro l hl
    rw [cut_cons] at hl
    rcases mem_append.1 hl with hl | hl
    · exact hstep'.1 l hl
    · exact hrec _ hstep'.2 l hl

theorem Rule.length_cut {k : Nat} (h : r.cut [] xs = ls) (hne : xs ≠ [])
    (hk : ∀ l, ∀ x ∈ xs, l ∈ ls → r.closes l = true ∨ r.fits l x = false → k ≤ l.length) :
    (ls.length - 1) * k < xs.length := by
  induction ls generalizing xs with
  | nil =>
    rw [length_nil, Nat.zero_sub, Nat.zero_mul]
    exact length_pos_of_ne_nil hne
  | cons l ls ih =>
    obtain ⟨rfl, hcut, -, he⟩ := whole_of_cut h
    cases ls with
    | nil =>
      rw [length_singleton, Nat.sub_self, Nat.zero_mul]
      exact length_pos_of_ne_nil hne
    | cons l' ls =>
      have hl' : l' ≠ [] := ne_nil_of_mem_cut (r := r) (o := []) (by
        rw [hcut]
        exact mem_cons_self)
      have hrest : (l' :: ls).flatten ≠ [] := by
        rw [flatten_cons]
        exact fun hnil => hl' (append_eq_nil_iff.1 hnil).1
      have hlong : k ≤ l.length := by
        obtain ⟨x, hx⟩ : ∃ x, (l' :: ls).flatten.head? = some x :=
          ⟨_, head?_eq_some_head hrest⟩
        apply hk l x (mem_append_right _ (mem_of_head? hx)) mem_cons_self
        exact he.imp id fun hfits => hfits x hx
      have hind := ih hcut hrest fun m x hx hm =>
        hk m x (mem_append_right _ hx) (mem_cons_of_mem _ hm)
      rw [length_append]
      simp only [length_cons, Nat.add_sub_cancel] at hind ⊢
      rw [Nat.add_mul, Nat.one_mul]
      omega

end Segmentation
