import Mathlib

/-! Programs whose operations on a state can fail, or be the last one before a crash. -/

namespace Faults

variable {ε σ α β : Type}

/-- How many operations succeed before one fails, once, or before the program stops for good. -/
inductive Plan
  | none
  | error (after : Nat)
  | crash (after : Nat)
  deriving DecidableEq

def Plan.survives : Plan → Bool
  | .crash _ => false
  | _ => true

structure World (σ : Type) where
  state : σ
  plan : Plan

def M (ε σ α : Type) := World σ → Except ε α × World σ

instance : Monad (M ε σ) where
  pure a := fun w => (.ok a, w)
  bind m g := fun w =>
    match m w with
    | (.ok a, w) => g a w
    | (.error e, w) => (.error e, w)

/-- An operation that the plan can stop. -/
def op (e : ε) (f : σ → σ) : M ε σ Unit := fun w =>
  match w.plan with
  | .none => (.ok (), { w with state := f w.state })
  | .error 0 => (.error e, { w with plan := .none })
  | .error (k + 1) => (.ok (), ⟨f w.state, .error k⟩)
  | .crash 0 => (.error e, w)
  | .crash (k + 1) => (.ok (), ⟨f w.state, .crash k⟩)

def read : M ε σ σ := fun w => (.ok w.state, w)

/-- A change that the plan cannot stop. -/
def update (f : σ → σ) : M ε σ Unit := fun w => (.ok (), { w with state := f w.state })

def fail (e : ε) : M ε σ α := fun w => (.error e, w)

def attempt (m : M ε σ α) : M ε σ (Option α) := fun w =>
  match m w with
  | (.ok a, w) => (.ok (some a), w)
  | (.error _, w) => (.ok none, w)

/-- Plans that stay in the class while they are used up. -/
structure Closed (plans : Plan → Prop) : Prop where
  none : (∃ k, plans (.error k)) → plans .none
  error : ∀ k, plans (.error (k + 1)) → plans (.error k)
  crash : ∀ k, plans (.crash (k + 1)) → plans (.crash k)

theorem closed_true : Closed fun _ => True := ⟨fun _ => trivial, fun _ _ => trivial, fun _ _ => trivial⟩

theorem closed_none : Closed (· = .none) :=
  ⟨fun ⟨_, h⟩ => (nomatch h), fun _ h => (nomatch h), fun _ h => (nomatch h)⟩

/-- From a state with `P`, the program ends with `Q` of its result, or fails with `R`. -/
def Safe (plans : Plan → Prop) (P : σ → Prop) (m : M ε σ α) (Q : α → σ → Prop) (R : σ → Prop) :
    Prop :=
  ∀ w, plans w.plan → P w.state → plans (m w).2.plan ∧
    match (m w).1 with
    | .ok a => Q a (m w).2.state
    | .error _ => R (m w).2.state

variable {plans : Plan → Prop} {P P' : σ → Prop} {Q Q' : α → σ → Prop} {R R' : σ → Prop}
  {m : M ε σ α} {e : ε} {f : σ → σ}

theorem Safe.pure {a : α} (h : ∀ s, P s → Q a s) : Safe plans P (pure a : M ε σ α) Q R :=
  fun w hplan hP => ⟨hplan, h w.state hP⟩

theorem Safe.fail (h : ∀ s, P s → R s) : Safe plans P (fail e : M ε σ α) Q R :=
  fun w hplan hP => ⟨hplan, h w.state hP⟩

theorem Safe.read : Safe plans P (read : M ε σ σ) (fun a s => a = s ∧ P s) R :=
  fun _ hplan hP => ⟨hplan, rfl, hP⟩

theorem Safe.update (h : ∀ s, P s → P' (f s)) :
    Safe plans P (update f : M ε σ Unit) (fun _ => P') R :=
  fun w hplan hP => ⟨hplan, h w.state hP⟩

theorem Safe.op (hplans : Closed plans) (h : ∀ s, P s → P' (f s)) (hR : ∀ s, P s → R s) :
    Safe plans P (op e f) (fun _ => P') R := by
  rintro ⟨s, plan⟩ hplan hP
  match plan, hplan with
  | .none, hplan => exact ⟨hplan, h s hP⟩
  | .error 0, hplan => exact ⟨hplans.none ⟨0, hplan⟩, hR s hP⟩
  | .error (k + 1), hplan => exact ⟨hplans.error k hplan, h s hP⟩
  | .crash 0, hplan => exact ⟨hplan, hR s hP⟩
  | .crash (k + 1), hplan => exact ⟨hplans.crash k hplan, h s hP⟩

theorem Safe.op_none (h : ∀ s, P s → P' (f s)) :
    Safe (· = .none) P (Faults.op e f) (fun _ => P') R := by
  rintro ⟨s, plan⟩ hplan hP
  cases hplan
  exact ⟨rfl, h s hP⟩

theorem bind_apply (m : M ε σ α) (g : α → M ε σ β) (w : World σ) : (m >>= g) w =
    match m w with
    | (.ok a, w) => g a w
    | (.error e, w) => (.error e, w) :=
  rfl

theorem Safe.bind {g : α → M ε σ β} {Q' : β → σ → Prop} (hm : Safe plans P m Q R)
    (hg : ∀ a, Safe plans (Q a) (g a) Q' R) : Safe plans P (m >>= g) Q' R := by
  intro w hplan hP
  obtain ⟨hplan', hfirst⟩ := hm w hplan hP
  rw [bind_apply]
  rcases hrun : m w with ⟨a | a, w'⟩ <;> rw [hrun] at hplan' hfirst
  · exact ⟨hplan', hfirst⟩
  · exact hg a w' hplan' hfirst

theorem Safe.weaken (h : Safe plans P m Q R) (hP : ∀ s, P' s → P s)
    (hQ : ∀ a s, Q a s → Q' a s) (hR : ∀ s, R s → R' s) : Safe plans P' m Q' R' := by
  intro w hplan hP'
  obtain ⟨hplan', hend⟩ := h w hplan (hP _ hP')
  refine ⟨hplan', ?_⟩
  rcases hrun : m w with ⟨a | a, w'⟩ <;> rw [hrun] at hend
  · exact hR _ hend
  · exact hQ _ _ hend

theorem Safe.pre (h : Safe plans P m Q R) (hP : ∀ s, P' s → P s) : Safe plans P' m Q R :=
  h.weaken hP (fun _ _ hQ => hQ) fun _ hR => hR

theorem Safe.onFail (h : Safe plans P m Q R) (hR : ∀ s, R s → R' s) : Safe plans P m Q R' :=
  h.weaken (fun _ hP => hP) (fun _ _ hQ => hQ) hR

theorem Safe.attempt (h : Safe plans P m Q R) :
    Safe plans P (attempt m) (fun a s => a.elim (R s) fun a => Q a s) R' := by
  intro w hplan hP
  obtain ⟨hplan', hend⟩ := h w hplan hP
  rw [Faults.attempt]
  rcases hrun : m w with ⟨a | a, w'⟩ <;> rw [hrun] at hplan' hend
  · exact ⟨hplan', hend⟩
  · exact ⟨hplan', hend⟩

theorem Safe.assume {p : Prop} (hp : ∀ s, P s → p) (h : p → Safe plans P m Q R) :
    Safe plans P m Q R :=
  fun w hplan hP => h (hp _ hP) w hplan hP

def Keeps (plans : Plan → Prop) (P : σ → Prop) (m : M ε σ α) : Prop :=
  Safe plans P m (fun _ => P) P

theorem Keeps.bind {g : α → M ε σ β} (hm : Keeps plans P m) (hg : ∀ a, Keeps plans P (g a)) :
    Keeps plans P (m >>= g) :=
  Safe.bind hm hg

theorem Keeps.op (hplans : Closed plans) (h : ∀ s, P s → P (f s)) : Keeps plans P (op e f) :=
  Safe.op hplans h fun _ hP => hP

theorem Keeps.attempt (h : Keeps plans P m) : Keeps plans P (attempt m) :=
  (Safe.attempt h).weaken (fun _ hP => hP) (fun a s hQ => by cases a <;> exact hQ) fun _ hP => hP

theorem Keeps.end_state {w : World σ} (h : Keeps plans P m) (hplan : plans w.plan)
    (hP : P w.state) : P (m w).2.state := by
  obtain ⟨-, hend⟩ := h w hplan hP
  rcases hrun : m w with ⟨a | a, w'⟩ <;> rw [hrun] at hend <;> exact hend

end Faults
