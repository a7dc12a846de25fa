import Mathlib

/-! Work done in units, where a caller may stop after any number of them and go on later. -/

namespace Resumable

variable {σ ε : Type} {next : σ → Except ε (Option σ)} {s s' : σ} {m n : Nat} {e : ε}

/-- At most `n` units: `next` answers `none` when nothing is left to do. -/
def run (next : σ → Except ε (Option σ)) : Nat → σ → Except ε σ
  | 0, s => .ok s
  | n + 1, s =>
    match next s with
    | .error e => .error e
    | .ok none => .ok s
    | .ok (some s') => run next n s'

theorem run_of_done (h : next s = .ok none) (n : Nat) : run next n s = .ok s := by
  cases n with
  | zero => rfl
  | succ n => rw [run, h]

theorem run_add (m n : Nat) (s : σ) : run next (m + n) s = run next m s >>= run next n := by
  induction m generalizing s with
  | zero =>
    rw [Nat.zero_add]
    rfl
  | succ m ih =>
    rw [Nat.add_right_comm, run, run]
    cases h : next s with
    | error e => rfl
    | ok o =>
      cases o with
      | none => exact (run_of_done h n).symm
      | some s' => exact ih s'

theorem run_invariant {p : σ → Prop} (hstep : ∀ s s', p s → next s = .ok (some s') → p s')
    (hs : p s) (h : run next n s = .ok s') : p s' := by
  induction n generalizing s with
  | zero =>
    cases h
    exact hs
  | succ n ih =>
    rw [run] at h
    cases hn : next s with
    | error e =>
      rw [hn] at h
      cases h
    | ok o =>
      rw [hn] at h
      cases o with
      | none =>
        cases h
        exact hs
      | some s₁ => exact ih (hstep s s₁ hs hn) h

section Measure

variable {p : σ → Prop} {μ : σ → Nat}
  (hstep : ∀ s s', p s → next s = .ok (some s') → p s' ∧ μ s' < μ s)

include hstep

theorem done_of_measure (hs : p s) (hn : μ s < n) (h : run next n s = .ok s') :
    next s' = .ok none := by
  induction n generalizing s with
  | zero => cases hn
  | succ n ih =>
    rw [run] at h
    cases hnext : next s with
    | error e =>
      rw [hnext] at h
      cases h
    | ok o =>
      rw [hnext] at h
      cases o with
      | none =>
        cases h
        exact hnext
      | some s₁ =>
        obtain ⟨hp, hlt⟩ := hstep s s₁ hs hnext
        exact ih hp (by omega) h

theorem run_eq_of_measure (hs : p s) (hm : μ s < m) (hn : μ s < n) :
    run next m s = run next n s := by
  have hmore (k : Nat) (hk : μ s < k) (j : Nat) : run next (k + j) s = run next k s := by
    rw [run_add]
    cases h : run next k s with
    | error e => rfl
    | ok s' => exact run_of_done (done_of_measure hstep hs hk h) j
  rw [← hmore m hm n, Nat.add_comm, hmore n hn m]

end Measure

theorem run_eq_of_error (h : run next m s = .error e) (hle : m ≤ n) : run next n s = .error e := by
  obtain ⟨k, rfl⟩ := Nat.exists_eq_add_of_le hle
  rw [run_add, h]
  rfl

theorem run_eq_of_done (h : run next m s = .ok s') (hdone : next s' = .ok none) (hle : m ≤ n) :
    run next n s = .ok s' := by
  obtain ⟨k, rfl⟩ := Nat.exists_eq_add_of_le hle
  rw [run_add, h]
  exact run_of_done hdone k

end Resumable
