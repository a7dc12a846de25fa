import Mathlib

namespace Fallible
open List

variable {ε α β : Type} {x : Except ε α} {f : α → Except ε β} {a : α} {b : β}

@[simp] theorem bind_eq_ok : (x >>= f) = .ok b ↔ ∃ a, x = .ok a ∧ f a = .ok b := by
  cases x with
  | error e =>
    constructor
    · intro h
      cases h
    · rintro ⟨a, h, -⟩
      cases h
  | ok a =>
    constructor
    · intro h
      exact ⟨a, rfl, h⟩
    · rintro ⟨a', h, hf⟩
      cases h
      exact hf

@[simp] theorem pure_eq_ok : (pure a : Except ε α) = .ok a' ↔ a = a' :=
  Except.ok.injEq a a' ▸ Iff.rfl

theorem map_eq_ok : x.map g = .ok b ↔ ∃ a, x = .ok a ∧ g a = b := by
  cases x with
  | error e =>
    constructor
    · intro h
      cases h
    · rintro ⟨a, h, -⟩
      cases h
  | ok a =>
    constructor
    · intro h
      exact ⟨a, rfl, Except.ok.inj h⟩
    · rintro ⟨a', h, rfl⟩
      cases h
      rfl

@[simp] theorem throw_ne_ok : (throw e : Except ε α) ≠ .ok a := by
  intro h
  cases h

@[simp] theorem exists_unit {p : Unit → Prop} : (∃ u, p u) ↔ p () :=
  ⟨fun ⟨_, h⟩ => h, fun h => ⟨_, h⟩⟩

theorem forM_eq_ok {g : α → Except ε PUnit} {l : List α} :
    l.forM g = .ok () ↔ ∀ a ∈ l, g a = .ok () := by
  induction l with
  | nil => simp
  | cons a l ih =>
    change (g a >>= fun _ => l.forM g) = .ok () ↔ _
    rw [bind_eq_ok, exists_unit, ih, forall_mem_cons]

theorem mapM_eq_ok : l.mapM f = .ok bs ↔ List.Forall₂ (fun a b => f a = .ok b) l bs := by
  induction l generalizing bs with
  | nil =>
    rw [mapM_nil, pure_eq_ok, forall₂_nil_left_iff, eq_comm]
  | cons a l ih =>
    rw [mapM_cons, bind_eq_ok, forall₂_cons_left_iff]
    constructor
    · rintro ⟨b, hb, h⟩
      obtain ⟨bs', hbs, h⟩ := bind_eq_ok.1 h
      exact ⟨b, bs', hb, ih.1 hbs, (pure_eq_ok.1 h).symm⟩
    · rintro ⟨b, bs', hb, hbs, rfl⟩
      exact ⟨b, hb, bind_eq_ok.2 ⟨bs', ih.2 hbs, rfl⟩⟩

theorem mem_left_of_forall₂ (h : List.Forall₂ R as bs) (ha : a ∈ as) : ∃ b ∈ bs, R a b := by
  induction h with
  | nil => cases ha
  | cons hab hrest ih =>
    rcases mem_cons.1 ha with rfl | ha
    · exact ⟨_, mem_cons_self, hab⟩
    · obtain ⟨b, hb, hr⟩ := ih ha
      exact ⟨b, mem_cons_of_mem _ hb, hr⟩

theorem mem_right_of_forall₂ (h : List.Forall₂ R as bs) (hb : b ∈ bs) : ∃ a ∈ as, R a b := by
  induction h with
  | nil => cases hb
  | @cons a b' as bs hab hrest ih =>
    rcases mem_cons.1 hb with rfl | hb
    · exact ⟨a, mem_cons_self, hab⟩
    · obtain ⟨a', ha', hr⟩ := ih hb
      exact ⟨a', mem_cons_of_mem _ ha', hr⟩

theorem mapM_of_forall {l : List α} (h : ∀ a ∈ l, ∃ b, f a = .ok b) : ∃ bs, l.mapM f = .ok bs := by
  induction l with
  | nil => exact ⟨[], rfl⟩
  | cons a l ih =>
    obtain ⟨b, hb⟩ := h a mem_cons_self
    obtain ⟨bs, hbs⟩ := ih fun a ha => h a (mem_cons_of_mem _ ha)
    exact ⟨b :: bs, mapM_eq_ok.2 (.cons hb (mapM_eq_ok.1 hbs))⟩

theorem mapM_append_eq_ok {l m : List α} :
    (l ++ m).mapM f = .ok bs ↔ ∃ bs₁ bs₂, l.mapM f = .ok bs₁ ∧ m.mapM f = .ok bs₂ ∧
      bs = bs₁ ++ bs₂ := by
  rw [mapM_append, bind_eq_ok]
  constructor
  · rintro ⟨bs₁, h₁, h⟩
    obtain ⟨bs₂, h₂, h⟩ := bind_eq_ok.1 h
    exact ⟨bs₁, bs₂, h₁, h₂, (pure_eq_ok.1 h).symm⟩
  · rintro ⟨bs₁, bs₂, h₁, h₂, rfl⟩
    exact ⟨bs₁, h₁, bind_eq_ok.2 ⟨bs₂, h₂, rfl⟩⟩

end Fallible
