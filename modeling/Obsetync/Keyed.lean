import Mathlib

namespace Keyed
open List

variable {α κ : Type} [LinearOrder κ] {key : α → κ} {l m : List α} {a : α} {k : κ}

def Sorted (key : α → κ) (l : List α) : Prop := l.Pairwise fun a b => key a < key b

instance (key : α → κ) (l : List α) : Decidable (Sorted key l) :=
  inferInstanceAs (Decidable (l.Pairwise _))

def lookup (key : α → κ) (l : List α) (k : κ) : Option α := l.find? fun a => key a = k

@[simp] theorem lookup_nil : lookup key [] k = none := rfl

theorem lookup_cons : lookup key (a :: l) k = if key a = k then some a else lookup key l k := by
  by_cases h : key a = k <;> simp [lookup, h]

theorem lookup_append : lookup key (l ++ m) k = (lookup key l k).or (lookup key m k) :=
  find?_append

theorem lookup_eq_none : lookup key l k = none ↔ ∀ a ∈ l, key a ≠ k := by
  simp [lookup]

theorem mem_of_lookup (h : lookup key l k = some a) : a ∈ l ∧ key a = k :=
  ⟨mem_of_find?_eq_some h, by simpa using find?_some h⟩

theorem Sorted.cons (h : Sorted key l) (hlt : ∀ b ∈ l, key a < key b) : Sorted key (a :: l) :=
  pairwise_cons.2 ⟨hlt, h⟩

theorem Sorted.lookup_of_mem (h : Sorted key l) (ha : a ∈ l) : lookup key l (key a) = some a := by
  induction l with
  | nil => cases ha
  | cons b l ih =>
    obtain ⟨hb, hl⟩ := pairwise_cons.1 h
    rw [lookup_cons]
    rcases mem_cons.1 ha with rfl | ha
    · exact if_pos rfl
    · rw [if_neg (hb a ha).ne]
      exact ih hl ha

theorem Sorted.eq_of_key (h : Sorted key l) (ha : a ∈ l) (hb : b ∈ l) (he : key a = key b) :
    a = b := by
  have := h.lookup_of_mem ha
  rw [he, h.lookup_of_mem hb] at this
  exact (Option.some.inj this).symm

theorem Sorted.lookup_eq_some (h : Sorted key l) : lookup key l k = some a ↔ a ∈ l ∧ key a = k := by
  constructor
  · exact mem_of_lookup
  · rintro ⟨ha, rfl⟩
    exact h.lookup_of_mem ha

theorem Sorted.nodup (h : Sorted key l) : l.Nodup := by
  apply h.imp
  rintro a b hlt rfl
  exact lt_irrefl _ hlt

theorem Sorted.ext (hl : Sorted key l) (hm : Sorted key m)
    (h : ∀ k, lookup key l k = lookup key m k) : l = m := by
  have hmem (a : α) : a ∈ l ↔ a ∈ m := by
    constructor
    · intro ha
      exact (mem_of_lookup ((h (key a)).symm.trans (hl.lookup_of_mem ha))).1
    · intro ha
      exact (mem_of_lookup ((h (key a)).trans (hm.lookup_of_mem ha))).1
  apply (@List.Perm.eq_of_pairwise _ (fun a b => key a < key b))
  · intro a b _ _ hab hba
    exact absurd (hab.trans hba) (lt_irrefl _)
  · exact hl
  · exact hm
  · exact (perm_ext_iff_of_nodup hl.nodup hm.nodup).2 hmem

theorem Sorted.filter (h : Sorted key l) (p : α → Bool) : Sorted key (l.filter p) :=
  List.Pairwise.filter p h

theorem Sorted.of_append (h : Sorted key (l ++ m)) :
    Sorted key l ∧ Sorted key m ∧ ∀ a ∈ l, ∀ b ∈ m, key a < key b :=
  pairwise_append.1 h

theorem Sorted.append (hl : Sorted key l) (hm : Sorted key m)
    (h : ∀ a ∈ l, ∀ b ∈ m, key a < key b) : Sorted key (l ++ m) :=
  pairwise_append.2 ⟨hl, hm, h⟩

theorem lookup_filter_key (f : κ → Bool) :
    lookup key (l.filter fun a => f (key a)) k = if f k then lookup key l k else none := by
  induction l with
  | nil => simp
  | cons a l ih =>
    rw [filter_cons]
    by_cases hk : key a = k
    · by_cases hf : f k = true
      · rw [hk, if_pos hf, if_pos hf, lookup_cons, lookup_cons, if_pos hk, if_pos hk]
      · rw [hk, if_neg hf, ih, if_neg hf, if_neg hf]
    · rw [lookup_cons, if_neg hk, ← ih]
      split_ifs
      · rw [lookup_cons, if_neg hk]
      · rfl

def sortBy (key : α → κ) (l : List α) : List α := l.insertionSort fun a b => key a ≤ key b

theorem sortBy_perm : (sortBy key l).Perm l := perm_insertionSort _ _

theorem sortBy_pairwise : (sortBy key l).Pairwise fun a b => key a ≤ key b := by
  have : Std.Total fun a b : α => key a ≤ key b := ⟨fun a b => le_total (key a) (key b)⟩
  have : IsTrans α fun a b => key a ≤ key b := ⟨fun _ _ _ => le_trans⟩
  exact pairwise_insertionSort _ _

theorem sortBy_sorted (h : (l.map key).Nodup) : Sorted key (sortBy key l) := by
  have hnd : ((sortBy key l).map key).Nodup := (sortBy_perm.map key).nodup_iff.2 h
  have hne := pairwise_map.1 hnd
  exact (sortBy_pairwise.and hne).imp fun hab => lt_of_le_of_ne hab.1 hab.2

theorem filter_sortBy : (sortBy key l).filter (key · = k) = l.filter (key · = k) := by
  have hins (a : α) (l : List α) : (l.orderedInsert (fun a b => key a ≤ key b) a).filter (key · = k) =
      (a :: l).filter (key · = k) := by
    induction l with
    | nil => rfl
    | cons b l ih =>
      rw [List.orderedInsert]
      split_ifs with hab
      · rfl
      · have hne : key b ≠ key a := fun h => hab h.ge
        rw [filter_cons, ih]
        by_cases ha : key a = k
        · simp [ha, ha ▸ hne]
        · simp [ha, filter_cons]
  induction l with
  | nil => rfl
  | cons a l ih =>
    rw [sortBy] at ih
    rw [sortBy, insertionSort_cons, hins, filter_cons, filter_cons, ih]

theorem lookup_sortBy : lookup key (sortBy key l) k = lookup key l k := by
  rw [lookup, lookup, ← head?_filter, ← head?_filter, filter_sortBy]

theorem Sorted.eq_sortBy (h : Sorted key m) (hp : m.Perm l) : sortBy key l = m := by
  have hnd : (l.map key).Nodup := by
    apply (hp.map key).nodup_iff.1
    exact pairwise_map.2 (h.imp fun hlt => hlt.ne)
  apply (sortBy_sorted hnd).ext h
  intro k
  have hmem (a : α) : a ∈ sortBy key l ↔ a ∈ m := (sortBy_perm.trans hp.symm).mem_iff
  apply Option.ext
  intro a
  rw [(sortBy_sorted hnd).lookup_eq_some, h.lookup_eq_some, hmem]

theorem Sorted.sortBy_self (h : Sorted key l) : sortBy key l = l := h.eq_sortBy (List.Perm.refl l)

theorem lookup_of_mem (h : (l.map key).Nodup) (ha : a ∈ l) : lookup key l (key a) = some a := by
  rw [← lookup_sortBy]
  exact (sortBy_sorted h).lookup_of_mem (sortBy_perm.mem_iff.2 ha)

theorem lookup_perm (h : l.Perm m) (hnd : (l.map key).Nodup) : lookup key l k = lookup key m k := by
  have hsort : sortBy key m = sortBy key l := (sortBy_sorted hnd).eq_sortBy (sortBy_perm.trans h)
  rw [← lookup_sortBy, ← hsort, lookup_sortBy]

/-- What a map collected from the list has at a key: the last element with that key. -/
def latest (key : α → κ) (l : List α) (k : κ) : Option α := (l.filter (key · = k)).getLast?

theorem Sorted.filter_key (h : Sorted key l) (k : κ) :
    l.filter (key · = k) = (lookup key l k).toList := by
  induction l with
  | nil => rfl
  | cons a l ih =>
    obtain ⟨ha, hl⟩ := pairwise_cons.1 h
    rw [lookup_cons]
    by_cases hk : key a = k
    · have hrest : l.filter (key · = k) = [] := by
        rw [filter_eq_nil_iff]
        intro b hb
        simpa [← hk] using (ha b hb).ne'
      rw [filter_cons_of_pos (by simpa using hk), hrest, if_pos hk]
      rfl
    · rw [filter_cons_of_neg (by simpa using hk), ih hl, if_neg hk]

theorem Sorted.latest_eq (h : Sorted key l) (k : κ) : latest key l k = lookup key l k := by
  rw [latest, h.filter_key]
  cases lookup key l k <;> rfl

theorem sorted_filterMap (h : Sorted id ks) (hg : ∀ k a, g k = some a → key a = k) :
    Sorted key (ks.filterMap g) := by
  induction ks with
  | nil => exact List.Pairwise.nil
  | cons k ks ih =>
    obtain ⟨hk, hks⟩ := pairwise_cons.1 h
    rw [filterMap_cons]
    cases hgk : g k with
    | none => exact ih hks
    | some a =>
      apply (ih hks).cons
      intro b hb
      obtain ⟨k', hk', hb⟩ := mem_filterMap.1 hb
      rw [hg k a hgk, hg k' b hb]
      exact hk k' hk'

theorem lookup_filterMap {ks : List κ} (hg : ∀ k a, g k = some a → key a = k) :
    lookup key (ks.filterMap g) k = if k ∈ ks then g k else none := by
  induction ks with
  | nil => rfl
  | cons k' ks ih =>
    rw [filterMap_cons]
    by_cases hk : k' = k
    · subst hk
      rw [if_pos mem_cons_self]
      cases hgk : g k' with
      | none => simp [ih, hgk]
      | some a => simp [lookup_cons, hg k' a hgk]
    · have hmem : k ∈ k' :: ks ↔ k ∈ ks := by simp [Ne.symm hk]
      rw [if_congr hmem rfl rfl, ← ih]
      cases hgk : g k' with
      | none => rfl
      | some a => simp [lookup_cons, hg k' a hgk, hk]

theorem eq_of_filter_key (hl : l.Pairwise fun a b => key a ≤ key b)
    (hm : m.Pairwise fun a b => key a ≤ key b)
    (h : ∀ k, l.filter (key · = k) = m.filter (key · = k)) : l = m := by
  have hmem {l m : List α} (h : ∀ k, l.filter (key · = k) = m.filter (key · = k)) {a : α}
      (ha : a ∈ l) : a ∈ m := by
    have hfilter : a ∈ l.filter (key · = key a) := by simp [ha]
    rw [h] at hfilter
    exact (mem_filter.1 hfilter).1
  induction l generalizing m with
  | nil =>
    rw [eq_comm, eq_nil_iff_forall_not_mem]
    intro a ha
    cases hmem (fun k => (h k).symm) ha
  | cons a l ih =>
    cases m with
    | nil => cases hmem h mem_cons_self
    | cons b m =>
      obtain ⟨ha, hl⟩ := pairwise_cons.1 hl
      obtain ⟨hb, hm'⟩ := pairwise_cons.1 hm
      have hab : key a = key b := by
        apply le_antisymm
        · rcases mem_cons.1 (hmem (fun k => (h k).symm) mem_cons_self) with hba | hbl
          · rw [hba]
          · exact ha b hbl
        · rcases mem_cons.1 (hmem h mem_cons_self) with hba | ham
          · rw [hba]
          · exact hb a ham
      have hhead := h (key a)
      rw [filter_cons_of_pos (by simp), filter_cons_of_pos (by simp [hab])] at hhead
      obtain rfl := (List.cons.inj hhead).1
      congr 1
      apply ih hl hm'
      intro k
      have hk := h k
      rw [filter_cons, filter_cons] at hk
      split_ifs at hk
      · exact (List.cons.inj hk).2
      · exact hk

theorem sortBy_eq_self : sortBy key l = l ↔ l.Pairwise fun a b => key a ≤ key b := by
  constructor
  · intro h
    rw [← h]
    exact sortBy_pairwise
  · intro h
    exact eq_of_filter_key sortBy_pairwise h fun k => filter_sortBy

theorem pairwise_of_filter_key (h : ∀ k, (l.filter (key · = k)).Pairwise R) :
    l.Pairwise fun a b => key a = key b → R a b := by
  induction l with
  | nil => exact List.Pairwise.nil
  | cons a l ih =>
    apply List.Pairwise.cons
    · intro b hb hab
      have ha := h (key a)
      rw [filter_cons_of_pos (by simp)] at ha
      exact (pairwise_cons.1 ha).1 b (by simp [hb, hab])
    · apply ih
      intro k
      exact (h k).sublist ((sublist_cons_self a l).filter _)

theorem Sorted.eq_of_perm (hl : Sorted key l) (hm : Sorted key m) (h : l.Perm m) : l = m := by
  rw [← hm.sortBy_self, hl.eq_sortBy h]

theorem flatMap_filter_eq_sortBy (hks : Sorted id ks) (h : ∀ a ∈ l, key a ∈ ks) :
    ks.flatMap (fun k => l.filter (key · = k)) = sortBy key l := by
  have hpick (k k' : κ) : (l.filter (key · = k')).filter (key · = k) =
      if k' = k then l.filter (key · = k) else [] := by
    split_ifs with hk
    · simp [hk, filter_filter]
    · rw [filter_filter, filter_eq_nil_iff]
      intro a _ hboth
      simp only [Bool.and_eq_true, decide_eq_true_eq] at hboth
      exact hk (hboth.2.symm.trans hboth.1)
  have hone (k : κ) (ks : List κ) (hks : Sorted id ks) :
      ks.flatMap (fun k' => if k' = k then l.filter (key · = k) else []) =
        if k ∈ ks then l.filter (key · = k) else [] := by
    induction ks with
    | nil => rfl
    | cons k' ks ih =>
      obtain ⟨hlt, hks⟩ := pairwise_cons.1 hks
      rw [flatMap_cons, ih hks]
      by_cases hk : k' = k
      · have hnot : k ∉ ks := fun hmem => (hlt k hmem).ne hk
        simp [hk, hnot]
      · simp [hk, Ne.symm hk]
  apply eq_of_filter_key _ sortBy_pairwise
  · intro k
    rw [filter_flatMap, filter_sortBy]
    simp only [hpick]
    rw [hone k ks hks]
    split_ifs with hk
    · rfl
    · rw [eq_comm, filter_eq_nil_iff]
      intro a ha heq
      rw [decide_eq_true_eq] at heq
      exact hk (heq ▸ h a ha)
  · rw [pairwise_flatMap]
    constructor
    · intro k _
      apply pairwise_of_forall_mem_list
      intro a ha b hb
      simp only [mem_filter, decide_eq_true_eq] at ha hb
      rw [ha.2, hb.2]
    · apply hks.imp
      intro k k' hlt a ha b hb
      simp only [mem_filter, decide_eq_true_eq] at ha hb
      rw [ha.2, hb.2]
      exact hlt.le

theorem lookup_flatMap {ks : List κ} {g : κ → List α} {c : κ → κ}
    (hg : ∀ k, ∀ a ∈ g k, c (key a) = k) (q : κ) :
    lookup key (ks.flatMap g) q = if c q ∈ ks then lookup key (g (c q)) q else none := by
  induction ks with
  | nil => rfl
  | cons k ks ih =>
    rw [flatMap_cons, lookup_append, ih]
    by_cases hk : c q = k
    · subst hk
      rw [if_pos mem_cons_self]
      cases hq : lookup key (g (c q)) q with
      | some a => rfl
      | none =>
        simp
    · have hnone : lookup key (g k) q = none := by
        rw [lookup_eq_none]
        rintro a ha rfl
        exact hk (hg k a ha)
      have hmem : c q ∈ k :: ks ↔ c q ∈ ks := by simp [hk]
      rw [hnone, if_congr hmem rfl rfl]
      rfl

theorem nodup_flatMap_keys {c : κ → κ} (hks : Sorted id ks) (hs : ∀ k, Sorted key (g k))
    (hg : ∀ k, ∀ a ∈ g k, c (key a) = k) : ((ks.flatMap g).map key).Nodup := by
  rw [map_flatMap, nodup_flatMap]
  constructor
  · intro k _
    exact pairwise_map.2 ((hs k).imp fun hlt => hlt.ne)
  · apply hks.imp
    intro k k' hlt q hk hk'
    obtain ⟨a, ha, rfl⟩ := mem_map.1 hk
    obtain ⟨b, hb, heq⟩ := mem_map.1 hk'
    have hcb := hg k' b hb
    rw [heq, hg k a ha] at hcb
    exact hlt.ne hcb

section Zip

variable {β γ : Type} {keyA : α → κ} {keyB : β → κ} {keyC : γ → κ}
  {f : Option α → Option β → Option γ} {as : List α} {b : β} {bs : List β} {c : γ}

def zipRow (keyA : α → κ) (keyB : β → κ) (f : Option α → Option β → Option γ) (a : α)
    (next : List β → List γ) : List β → List γ
  | [] => (f (some a) none).toList ++ next []
  | b :: bs =>
    if keyA a < keyB b then (f (some a) none).toList ++ next (b :: bs)
    else if keyA a = keyB b then (f (some a) (some b)).toList ++ next bs
    else (f none (some b)).toList ++ zipRow keyA keyB f a next bs

/-- One walk along two lists: at each turn the smaller key is taken, from both lists where they
share it. -/
def zip (keyA : α → κ) (keyB : β → κ) (f : Option α → Option β → Option γ) :
    List α → List β → List γ
  | [], bs => bs.filterMap fun b => f none (some b)
  | a :: as, bs => zipRow keyA keyB f a (zip keyA keyB f as) bs

def KeepsKey (keyA : α → κ) (keyB : β → κ) (keyC : γ → κ)
    (f : Option α → Option β → Option γ) : Prop :=
  ∀ x y c k, (∀ a ∈ x, keyA a = k) → (∀ b ∈ y, keyB b = k) → f x y = some c → keyC c = k

@[simp] theorem zip_nil : zip keyA keyB f [] bs = bs.filterMap fun b => f none (some b) := rfl

@[simp] theorem zip_cons_nil :
    zip keyA keyB f (a :: as) [] = (f (some a) none).toList ++ zip keyA keyB f as [] := rfl

theorem zip_cons_cons : zip keyA keyB f (a :: as) (b :: bs) =
    if keyA a < keyB b then (f (some a) none).toList ++ zip keyA keyB f as (b :: bs)
    else if keyA a = keyB b then (f (some a) (some b)).toList ++ zip keyA keyB f as bs
    else (f none (some b)).toList ++ zip keyA keyB f (a :: as) bs := rfl

theorem zip_induction (keyA : α → κ) (keyB : β → κ) {motive : List α → List β → Prop}
    (nil : ∀ bs, motive [] bs) (cons_nil : ∀ a as, motive as [] → motive (a :: as) [])
    (lt : ∀ a as b bs, keyA a < keyB b → motive as (b :: bs) → motive (a :: as) (b :: bs))
    (eq : ∀ a as b bs, keyA a = keyB b → motive as bs → motive (a :: as) (b :: bs))
    (gt : ∀ a as b bs, keyB b < keyA a → motive (a :: as) bs → motive (a :: as) (b :: bs))
    (as : List α) (bs : List β) : motive as bs := by
  induction as generalizing bs with
  | nil => exact nil bs
  | cons a as ih =>
    induction bs with
    | nil => exact cons_nil a as (ih [])
    | cons b bs ihb =>
      rcases lt_trichotomy (keyA a) (keyB b) with h | h | h
      · exact lt a as b bs h (ih (b :: bs))
      · exact eq a as b bs h (ih bs)
      · exact gt a as b bs h ihb

theorem zip_of_lt (h : keyA a < keyB b) : zip keyA keyB f (a :: as) (b :: bs) =
    (f (some a) none).toList ++ zip keyA keyB f as (b :: bs) := by
  rw [zip_cons_cons, if_pos h]

theorem zip_of_eq (h : keyA a = keyB b) : zip keyA keyB f (a :: as) (b :: bs) =
    (f (some a) (some b)).toList ++ zip keyA keyB f as bs := by
  rw [zip_cons_cons, if_neg h.not_lt, if_pos h]

theorem zip_of_gt (h : keyB b < keyA a) : zip keyA keyB f (a :: as) (b :: bs) =
    (f none (some b)).toList ++ zip keyA keyB f (a :: as) bs := by
  rw [zip_cons_cons, if_neg h.not_gt, if_neg h.ne']

omit [LinearOrder κ] in
theorem KeepsKey.left (hf : KeepsKey keyA keyB keyC f) (h : c ∈ f (some a) none) :
    keyC c = keyA a :=
  hf _ _ _ _ (fun _ ha => by cases ha; rfl) (fun _ hb => by cases hb) h

omit [LinearOrder κ] in
theorem KeepsKey.right (hf : KeepsKey keyA keyB keyC f) (h : c ∈ f none (some b)) :
    keyC c = keyB b :=
  hf _ _ _ _ (fun _ ha => by cases ha) (fun _ hb => by cases hb; rfl) h

omit [LinearOrder κ] in
theorem KeepsKey.both (hf : KeepsKey keyA keyB keyC f) (hab : keyA a = keyB b)
    (h : c ∈ f (some a) (some b)) : keyC c = keyA a :=
  hf _ _ _ _ (fun _ ha => by cases ha; rfl) (fun _ hb => by cases hb; exact hab.symm) h

theorem mem_zip (hf : KeepsKey keyA keyB keyC f) (h : c ∈ zip keyA keyB f as bs) :
    (∃ a ∈ as, keyC c = keyA a) ∨ ∃ b ∈ bs, keyC c = keyB b := by
  induction as, bs using zip_induction keyA keyB with
  | nil bs =>
    obtain ⟨b, hb, hc⟩ := mem_filterMap.1 h
    exact .inr ⟨b, hb, hf.right hc⟩
  | cons_nil a as ih =>
    rcases mem_append.1 h with h | h
    · exact .inl ⟨a, mem_cons_self, hf.left (Option.mem_toList.1 h)⟩
    · exact (ih h).imp (fun ⟨a', ha', he⟩ => ⟨a', mem_cons_of_mem _ ha', he⟩) id
  | lt a as b bs hlt ih =>
    rw [zip_of_lt hlt] at h
    rcases mem_append.1 h with h | h
    · exact .inl ⟨a, mem_cons_self, hf.left (Option.mem_toList.1 h)⟩
    · exact (ih h).imp (fun ⟨a', ha', he⟩ => ⟨a', mem_cons_of_mem _ ha', he⟩) id
  | eq a as b bs heq ih =>
    rw [zip_of_eq heq] at h
    rcases mem_append.1 h with h | h
    · exact .inl ⟨a, mem_cons_self, hf.both heq (Option.mem_toList.1 h)⟩
    · exact (ih h).imp (fun ⟨a', ha', he⟩ => ⟨a', mem_cons_of_mem _ ha', he⟩)
        (fun ⟨b', hb', he⟩ => ⟨b', mem_cons_of_mem _ hb', he⟩)
  | gt a as b bs hgt ih =>
    rw [zip_of_gt hgt] at h
    rcases mem_append.1 h with h | h
    · exact .inr ⟨b, mem_cons_self, hf.right (Option.mem_toList.1 h)⟩
    · exact (ih h).imp id (fun ⟨b', hb', he⟩ => ⟨b', mem_cons_of_mem _ hb', he⟩)

theorem lookup_eq_none_of_lt (h : ∀ a ∈ l, k < key a) : lookup key l k = none := by
  rw [lookup_eq_none]
  intro a ha
  exact (h a ha).ne'

theorem lookup_toList_append (hx : ∀ a ∈ x, key a = k) (h : ∀ a ∈ l, k < key a) :
    lookup key (x.toList ++ l) k' = if k' = k then x else lookup key l k' := by
  cases x with
  | none =>
    split_ifs with hk
    · rw [hk]
      exact lookup_eq_none_of_lt h
    · rfl
  | some a =>
    rw [Option.toList_some, singleton_append, lookup_cons, hx a rfl]
    simp only [eq_comm]

theorem zip_turn (hf : KeepsKey keyA keyB keyC f) (hx : ∀ a ∈ x, keyA a = k)
    (hy : ∀ b ∈ y, keyB b = k) (ha : ∀ a ∈ as, k < keyA a) (hb : ∀ b ∈ bs, k < keyB b)
    (ih : Sorted keyC (zip keyA keyB f as bs) ∧
      ∀ k, lookup keyC (zip keyA keyB f as bs) k = f (lookup keyA as k) (lookup keyB bs k)) :
    Sorted keyC ((f x y).toList ++ zip keyA keyB f as bs) ∧
      ∀ k, lookup keyC ((f x y).toList ++ zip keyA keyB f as bs) k =
        f (lookup keyA (x.toList ++ as) k) (lookup keyB (y.toList ++ bs) k) := by
  have hlt : ∀ c ∈ zip keyA keyB f as bs, k < keyC c := by
    intro c hc
    rcases mem_zip hf hc with ⟨a, ha', he⟩ | ⟨b, hb', he⟩
    · exact he ▸ ha a ha'
    · exact he ▸ hb b hb'
  have hkey : ∀ c ∈ f x y, keyC c = k := fun c hc => hf x y c k hx hy hc
  constructor
  · cases h : f x y with
    | none => exact ih.1
    | some c =>
      apply ih.1.cons
      intro d hd
      rw [hkey c h]
      exact hlt d hd
  · intro k'
    rw [lookup_toList_append hkey hlt, lookup_toList_append hx ha, lookup_toList_append hy hb, ih.2]
    split_ifs <;> rfl

theorem zip_spec (hf : KeepsKey keyA keyB keyC f) (hnone : f none none = none)
    (ha : Sorted keyA as) (hb : Sorted keyB bs) : Sorted keyC (zip keyA keyB f as bs) ∧
      ∀ k, lookup keyC (zip keyA keyB f as bs) k = f (lookup keyA as k) (lookup keyB bs k) := by
  have hself {δ : Type} {key : δ → κ} {d : δ} : ∀ d' ∈ some d, key d' = key d := fun _ h => by
    cases h
    rfl
  have hlater {δ : Type} {key : δ → κ} {d : δ} {ds : List δ} (h : Sorted key (d :: ds)) {k : κ}
      (hk : k < key d) : ∀ d' ∈ d :: ds, k < key d' := by
    intro d' hd'
    rcases mem_cons.1 hd' with rfl | hd'
    · exact hk
    · exact hk.trans ((pairwise_cons.1 h).1 d' hd')
  induction as, bs using zip_induction keyA keyB with
  | nil bs =>
    induction bs with
    | nil => exact ⟨List.Pairwise.nil, fun k => hnone.symm⟩
    | cons b bs ih =>
      obtain ⟨hlt, hbs⟩ := pairwise_cons.1 hb
      have hcons : zip keyA keyB f [] (b :: bs) =
          (f none (some b)).toList ++ zip keyA keyB f [] bs := by
        cases h : f none (some b) <;> simp [h]
      rw [hcons]
      exact zip_turn hf (by simp) hself (by simp) hlt (ih hbs)
  | cons_nil a as ih =>
    obtain ⟨hlt, has⟩ := pairwise_cons.1 ha
    exact zip_turn hf hself (by simp) hlt (by simp) (ih has hb)
  | lt a as b bs hab ih =>
    obtain ⟨hlt, has⟩ := pairwise_cons.1 ha
    rw [zip_of_lt hab]
    exact zip_turn hf hself (by simp) hlt (hlater hb hab) (ih has hb)
  | eq a as b bs hab ih =>
    obtain ⟨hlt, has⟩ := pairwise_cons.1 ha
    obtain ⟨hlt', hbs⟩ := pairwise_cons.1 hb
    rw [zip_of_eq hab]
    exact zip_turn hf (fun a' h => by cases h; exact hab) hself (hab ▸ hlt) hlt' (ih has hbs)
  | gt a as b bs hba ih =>
    obtain ⟨hlt', hbs⟩ := pairwise_cons.1 hb
    rw [zip_of_gt hba]
    exact zip_turn hf (by simp) hself (hlater ha hba) hlt' (ih ha hbs)

end Zip

section Search

def search (key : α → κ) (l : List α) (k : κ) : Except Nat Nat :=
  let index := (l.takeWhile (key · < k)).length
  if (l[index]?).map key = some k then .ok index else .error index

def replace (l : List α) : Except Nat Nat → Option α → List α
  | .ok index, none => l.eraseIdx index
  | .error _, none => l
  | .ok index, some a => l.set index a
  | .error index, some a => l.insertIdx index a

theorem search_cases (hs : Sorted key l) (k : κ) :
    (∃ l₁ a l₂, l = l₁ ++ a :: l₂ ∧ key a = k ∧ search key l k = .ok l₁.length) ∨
      ∃ l₁ l₂, l = l₁ ++ l₂ ∧ search key l k = .error l₁.length ∧
        (∀ b ∈ l₁, key b < k) ∧ ∀ b ∈ l₂, k < key b := by
  have hsplit : l.takeWhile (key · < k) ++ l.dropWhile (key · < k) = l :=
    takeWhile_append_dropWhile
  have hbefore : ∀ b ∈ l.takeWhile (key · < k), key b < k := by
    intro b hb
    simpa using mem_takeWhile_imp hb
  have hindex : l[(l.takeWhile (key · < k)).length]? = (l.dropWhile (key · < k)).head? := by
    have happend := @List.getElem?_append_right _ (l.takeWhile (key · < k))
      (l.dropWhile (key · < k)) _ (le_refl _)
    rwa [hsplit, Nat.sub_self, ← head?_eq_getElem?] at happend
  have hhead := head?_dropWhile_not (fun a => decide (key a < k)) l
  cases hdrop : l.dropWhile (key · < k) with
  | nil =>
    rw [hdrop] at hindex hsplit
    refine .inr ⟨_, [], hsplit.symm, ?_, hbefore, nofun⟩
    rw [search, if_neg]
    rw [hindex]
    nofun
  | cons a l₂ =>
    rw [hdrop] at hindex hsplit hhead
    have hle : k ≤ key a := by simpa using hhead
    rcases hle.eq_or_lt with heq | hlt
    · refine .inl ⟨_, a, l₂, hsplit.symm, heq.symm, ?_⟩
      rw [search, if_pos]
      rw [hindex, heq]
      rfl
    · refine .inr ⟨_, a :: l₂, hsplit.symm, ?_, hbefore, ?_⟩
      · rw [search, if_neg]
        rw [hindex]
        intro h
        exact hlt.ne' (Option.some.inj h)
      · rw [← hsplit] at hs
        intro b hb
        rcases mem_cons.1 hb with rfl | hb
        · exact hlt
        · exact hlt.trans ((pairwise_cons.1 hs.of_append.2.1).1 b hb)

theorem lookup_split (hs : Sorted key (l₁ ++ a :: l₂)) :
    lookup key (l₁ ++ a :: l₂) (key a) = some a :=
  hs.lookup_of_mem (mem_append_right _ mem_cons_self)

theorem search_split (hs : Sorted key (l₁ ++ a :: l₂)) :
    search key (l₁ ++ a :: l₂) (key a) = .ok l₁.length := by
  have hbefore : ∀ b ∈ l₁, decide (key b < key a) = true := by
    intro b hb
    exact decide_eq_true ((pairwise_append.1 hs).2.2 b hb a mem_cons_self)
  have htake : (l₁ ++ a :: l₂).takeWhile (key · < key a) = l₁ := by
    rw [takeWhile_append_of_pos hbefore, takeWhile_cons_of_neg (by simp), append_nil]
  simp [search, htake]

theorem getElem?_of_search (hs : Sorted key l) (h : search key l k = .ok i) :
    l[i]? = lookup key l k := by
  rcases search_cases hs k with ⟨l₁, a, l₂, rfl, rfl, hok⟩ | ⟨l₁, l₂, rfl, herr, -⟩
  · cases hok.symm.trans h
    rw [lookup_split hs]
    simp
  · cases herr.symm.trans h

theorem lookup_of_search (hs : Sorted key l) (h : search key l k = .error i) :
    lookup key l k = none := by
  rcases search_cases hs k with ⟨l₁, a, l₂, rfl, rfl, hok⟩ | ⟨l₁, l₂, rfl, -, h₁, h₂⟩
  · cases hok.symm.trans h
  · rw [lookup_eq_none]
    intro b hb
    rcases mem_append.1 hb with hb | hb
    · exact (h₁ b hb).ne
    · exact (h₂ b hb).ne'

theorem between_spec {l₁ l₂ : List α} (hs : Sorted key (l₁ ++ l₂)) (h₁ : ∀ b ∈ l₁, key b < k)
    (h₂ : ∀ b ∈ l₂, k < key b) {new : Option α} (hnew : ∀ a ∈ new, key a = k) :
    Sorted key (l₁ ++ (new.toList ++ l₂)) ∧ ∀ k', lookup key (l₁ ++ (new.toList ++ l₂)) k' =
      if k' = k then new else lookup key (l₁ ++ l₂) k' := by
  obtain ⟨hs₁, hs₂, hlt⟩ := hs.of_append
  constructor
  · apply hs₁.append
    · cases new with
      | none => exact hs₂
      | some a =>
        apply hs₂.cons
        rw [hnew a rfl]
        exact h₂
    · intro b hb c hc
      rcases mem_append.1 hc with hc | hc
      · rw [hnew c (Option.mem_toList.1 hc)]
        exact h₁ b hb
      · exact hlt b hb c hc
  · intro k'
    rw [lookup_append, lookup_toList_append hnew h₂, lookup_append]
    split_ifs with hk
    · have hnone : lookup key l₁ k' = none := by
        rw [lookup_eq_none]
        intro b hb
        rw [hk]
        exact (h₁ b hb).ne
      rw [hnone]
      rfl
    · rfl

theorem insertIdx_length_append (l₁ l₂ : List α) (a : α) :
    (l₁ ++ l₂).insertIdx l₁.length a = l₁ ++ a :: l₂ := by
  induction l₁ with
  | nil => rfl
  | cons b l₁ ih => rw [cons_append, length_cons, insertIdx_succ_cons, ih, cons_append]

theorem replace_spec (hs : Sorted key l) {new : Option α} (hnew : ∀ a ∈ new, key a = k) :
    Sorted key (replace l (search key l k) new) ∧
      ∀ k', lookup key (replace l (search key l k) new) k' =
        if k' = k then new else lookup key l k' := by
  rcases search_cases hs k with ⟨l₁, a, l₂, rfl, rfl, hok⟩ | ⟨l₁, l₂, rfl, herr, h₁, h₂⟩
  · obtain ⟨hs₁, hs₂, hlt⟩ := hs.of_append
    obtain ⟨ha, hs₂⟩ := pairwise_cons.1 hs₂
    have hrest : Sorted key (l₁ ++ l₂) :=
      hs₁.append hs₂ fun b hb c hc => hlt b hb c (mem_cons_of_mem _ hc)
    have h₁ : ∀ b ∈ l₁, key b < key a := fun b hb => hlt b hb a mem_cons_self
    have hreplace : replace (l₁ ++ a :: l₂) (.ok l₁.length) new = l₁ ++ (new.toList ++ l₂) := by
      cases new with
      | none => simp [replace, eraseIdx_append_of_length_le]
      | some b => simp [replace]
    obtain ⟨hsort, hlook⟩ := between_spec hrest h₁ ha hnew
    have hold := (@between_spec _ _ _ _ _ _ _ hrest h₁ ha (some a) fun b hb => by cases hb; rfl).2
    rw [hok, hreplace]
    refine ⟨hsort, fun k' => ?_⟩
    rw [hlook]
    split_ifs with hk
    · rfl
    · exact ((hold k').trans (if_neg hk)).symm
  · have hreplace : replace (l₁ ++ l₂) (.error l₁.length) new = l₁ ++ (new.toList ++ l₂) := by
      cases new with
      | none => rfl
      | some b => exact insertIdx_length_append l₁ l₂ b
    rw [herr, hreplace]
    exact between_spec hs h₁ h₂ hnew

end Search

end Keyed
