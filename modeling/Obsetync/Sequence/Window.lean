import Mathlib

namespace Obsetync.Sequence
open List

def windowBits : Nat := 1024
def reservationBlock : Nat := 4096
def maxU64 : Nat := 2 ^ 64 - 1

/-- The anti-replay window of one device. Bit `age` of `seen` stands for `greatestSeen - age`. -/
structure ReplayWindow where
  greatestSeen : Nat
  reservedThrough : Nat
  seen : BitVec windowBits
  deriving DecidableEq

def ReplayWindow.default : ReplayWindow := ⟨0, 0, 0⟩

def ReplayWindow.loaded (reservedThrough : Nat) : ReplayWindow :=
  ⟨reservedThrough, reservedThrough, BitVec.allOnes windowBits⟩

def bitIsSet (bits : BitVec windowBits) (index : Nat) : Bool := bits.getLsbD index

def setBit (bits : BitVec windowBits) (index : Nat) : BitVec windowBits :=
  bits ||| BitVec.twoPow windowBits index

def reservationCeiling (sequence : Nat) : Nat :=
  let remainder := sequence % reservationBlock
  if remainder = 0 then sequence else min maxU64 (sequence + (reservationBlock - remainder))

def isSeenOrStale (state : ReplayWindow) (sequence : Nat) : Bool :=
  if state.greatestSeen < sequence then false
  else
    let age := state.greatestSeen - sequence
    windowBits ≤ age || bitIsSet state.seen age

/-- The loop that moves the marks of a window by `shift`. -/
def shifted (previous : BitVec windowBits) (shift : Nat) : BitVec windowBits :=
  (List.range (windowBits - shift)).foldl
    (fun seen age => if bitIsSet previous age then setBit seen (age + shift) else seen) 0

def record (state : ReplayWindow) (sequence : Nat) : ReplayWindow :=
  if state.greatestSeen < sequence then
    let delta := sequence - state.greatestSeen
    let seen := if windowBits ≤ delta then 0 else shifted state.seen delta
    { state with greatestSeen := sequence, seen := setBit seen 0 }
  else { state with seen := setBit state.seen (state.greatestSeen - sequence) }

section Bits

variable {bits previous : BitVec windowBits} {shift i j n : Nat}

theorem bitIsSet_setBit (hi : i < windowBits) :
    bitIsSet (setBit bits i) j = (bitIsSet bits j || decide (i = j)) := by
  rw [bitIsSet, setBit, BitVec.getLsbD_or, BitVec.getLsbD_twoPow, decide_eq_true hi, Bool.true_and]
  rfl

@[simp] theorem bitIsSet_zero : bitIsSet 0 i = false := BitVec.getLsbD_zero

theorem bitIsSet_allOnes (hi : i < windowBits) : bitIsSet (BitVec.allOnes windowBits) i = true := by
  rw [bitIsSet, BitVec.getLsbD_allOnes, decide_eq_true hi]

theorem bitIsSet_shiftLoop (hn : n + shift ≤ windowBits) : bitIsSet ((List.range n).foldl
      (fun seen age => if bitIsSet previous age then setBit seen (age + shift) else seen) 0) j =
      (decide (shift ≤ j ∧ j < n + shift) && bitIsSet previous (j - shift)) := by
  induction n with
  | zero =>
    rw [range_zero, foldl_nil, bitIsSet_zero, decide_eq_false (by omega), Bool.false_and]
  | succ n ih =>
    rw [range_succ, foldl_append, foldl_cons, foldl_nil]
    have hprev := ih (by omega)
    by_cases hj : j = n + shift
    · subst hj
      rw [decide_eq_false (by omega), Bool.false_and] at hprev
      rw [decide_eq_true (by omega), Bool.true_and, Nat.add_sub_cancel]
      split_ifs with hset
      · rw [bitIsSet_setBit (by omega), hset, decide_eq_true rfl, Bool.or_true]
      · rw [hprev]
        exact (Bool.eq_false_iff.2 hset).symm
    · have hiff : (shift ≤ j ∧ j < n + 1 + shift) ↔ (shift ≤ j ∧ j < n + shift) := by omega
      rw [decide_eq_decide.2 hiff, ← hprev]
      split_ifs with hset
      · rw [bitIsSet_setBit (by omega), decide_eq_false (Ne.symm hj), Bool.or_false]
      · rfl

theorem bitIsSet_shifted (hshift : shift ≤ windowBits) (hj : j < windowBits) :
    bitIsSet (shifted previous shift) j = (decide (shift ≤ j) && bitIsSet previous (j - shift)) := by
  rw [shifted, bitIsSet_shiftLoop (by omega)]
  congr 2
  simp only [eq_iff_iff]
  omega

end Bits

theorem reservedThrough_record (state : ReplayWindow) (n : Nat) :
    (record state n).reservedThrough = state.reservedThrough := by
  rw [record]
  split_ifs <;> rfl

theorem le_reservationCeiling (h : n ≤ maxU64) : n ≤ reservationCeiling n := by
  rw [reservationCeiling]
  split_ifs
  · exact le_refl n
  · exact le_min h (Nat.le_add_right _ _)

theorem reservationCeiling_le (h : n ≤ maxU64) : reservationCeiling n ≤ maxU64 := by
  rw [reservationCeiling]
  split_ifs
  · exact h
  · exact min_le_left _ _

/-- What a window knows: the numbers accepted so far, and the ceiling it was loaded with. -/
structure Tracks (state : ReplayWindow) (ceiling : Nat) (accepted : List Nat) : Prop where
  reserved : state.greatestSeen ≤ state.reservedThrough
  ceiling_le : ceiling ≤ state.greatestSeen
  accepted_le : ∀ n ∈ accepted, n ≤ state.greatestSeen
  greatest : state.greatestSeen = ceiling ∨ state.greatestSeen ∈ accepted
  marks : ∀ n, 0 < n → n ≤ state.greatestSeen → state.greatestSeen - n < windowBits →
    (bitIsSet state.seen (state.greatestSeen - n) = true ↔ n ∈ accepted ∨ n ≤ ceiling)

variable {state : ReplayWindow} {ceiling n : Nat} {accepted : List Nat}

theorem tracks_default : Tracks .default 0 [] where
  reserved := le_refl 0
  ceiling_le := le_refl 0
  accepted_le := fun _ h => (not_mem_nil h).elim
  greatest := .inl rfl
  marks := fun _ hpos hle => (Nat.not_le.2 hpos hle).elim

theorem tracks_loaded (h : ∀ n ∈ accepted, n ≤ ceiling) : Tracks (.loaded ceiling) ceiling accepted where
  reserved := le_refl _
  ceiling_le := le_refl _
  accepted_le := h
  greatest := .inl rfl
  marks := fun _ _ hle hage => iff_of_true (bitIsSet_allOnes hage) (.inr hle)

theorem isSeenOrStale_eq_false : isSeenOrStale state n = false ↔
    n ≤ state.greatestSeen → state.greatestSeen - n < windowBits ∧
      bitIsSet state.seen (state.greatestSeen - n) = false := by
  rw [isSeenOrStale]
  split_ifs with hlt
  · exact iff_of_true rfl fun hle => (Nat.not_le.2 hlt hle).elim
  · simp [not_lt.1 hlt]

theorem Tracks.seen (h : Tracks state ceiling accepted) (hpos : 0 < n)
    (hold : n ∈ accepted ∨ n ≤ ceiling) : isSeenOrStale state n = true := by
  have hle : n ≤ state.greatestSeen :=
    hold.elim (h.accepted_le n) fun hle => hle.trans h.ceiling_le
  by_contra hno
  obtain ⟨hage, hbit⟩ := isSeenOrStale_eq_false.1 (Bool.not_eq_true _ ▸ hno) hle
  have hset := (h.marks n hpos hle hage).2 hold
  rw [hbit] at hset
  cases hset

theorem Tracks.reserve (h : Tracks state ceiling accepted) (hr : state.reservedThrough ≤ r) :
    Tracks { state with reservedThrough := r } ceiling accepted :=
  ⟨h.reserved.trans hr, h.ceiling_le, h.accepted_le, h.greatest, h.marks⟩

theorem Tracks.fresh (h : Tracks state ceiling accepted) (hnew : n ∉ accepted) (hc : ceiling < n)
    (hwindow : ∀ m ∈ accepted, m < n + windowBits) : isSeenOrStale state n = false := by
  rw [isSeenOrStale_eq_false]
  intro hle
  have hage : state.greatestSeen - n < windowBits := by
    rcases h.greatest with heq | hmem
    · omega
    · have := hwindow _ hmem
      omega
  refine ⟨hage, Bool.eq_false_iff.2 fun hset => ?_⟩
  rcases (h.marks n (Nat.zero_lt_of_lt hc) hle hage).1 hset with hmem | hold
  · exact hnew hmem
  · omega

theorem Tracks.not_mem_of_gt (h : Tracks state ceiling accepted) (hn : state.greatestSeen < n) :
    ¬ (n ∈ accepted ∨ n ≤ ceiling) := by
  rintro (hmem | hle)
  · exact Nat.not_le.2 hn (h.accepted_le n hmem)
  · exact Nat.not_le.2 hn (hle.trans h.ceiling_le)

theorem Tracks.marks_shifted (h : Tracks state ceiling accepted) (hlt : state.greatestSeen < n)
    (hpos : 0 < m) (hm : m < n) (hage : n - m < windowBits) :
    bitIsSet (if windowBits ≤ n - state.greatestSeen then 0
      else shifted state.seen (n - state.greatestSeen)) (n - m) = true ↔
      m ∈ accepted ∨ m ≤ ceiling := by
  split_ifs with hfar
  · rw [bitIsSet_zero]
    exact iff_of_false Bool.false_ne_true (h.not_mem_of_gt (by omega))
  · rw [bitIsSet_shifted (by omega) hage, Bool.and_eq_true, decide_eq_true_iff]
    by_cases hold : m ≤ state.greatestSeen
    · have hsub : n - m - (n - state.greatestSeen) = state.greatestSeen - m := by omega
      rw [hsub, h.marks m hpos hold (by omega)]
      exact and_iff_right (by omega)
    · exact iff_of_false (fun hand => by omega) (h.not_mem_of_gt (not_le.1 hold))

theorem Tracks.record (h : Tracks state ceiling accepted) (hfresh : isSeenOrStale state n = false)
    (hn : n ≤ state.reservedThrough) : Tracks (record state n) ceiling (accepted ++ [n]) := by
  rw [Sequence.record]
  split_ifs with hlt
  · constructor
    · exact hn
    · exact h.ceiling_le.trans hlt.le
    · intro m hm
      rcases mem_append.1 hm with hm | hm
      · exact (h.accepted_le m hm).trans hlt.le
      · exact (mem_singleton.1 hm).le
    · exact .inr (mem_append_right _ mem_cons_self)
    · intro m hpos hle hage
      change m ≤ n at hle
      change n - m < windowBits at hage
      rw [bitIsSet_setBit (by decide), Bool.or_eq_true, decide_eq_true_iff, mem_append,
        mem_singleton]
      rcases eq_or_lt_of_le hle with rfl | hm
      · exact iff_of_true (.inr (Nat.sub_self _).symm) (.inl (.inr rfl))
      · rw [h.marks_shifted hlt hpos hm hage]
        change (_ ∨ 0 = n - m) ↔ _
        constructor
        · rintro ((hmem | hold) | habs)
          · exact .inl (.inl hmem)
          · exact .inr hold
          · omega
        · rintro ((hmem | rfl) | hold)
          · exact .inl (.inl hmem)
          · exact absurd hm (lt_irrefl _)
          · exact .inl (.inr hold)
  · obtain ⟨hage, -⟩ := isSeenOrStale_eq_false.1 hfresh (not_lt.1 hlt)
    constructor
    · exact h.reserved
    · exact h.ceiling_le
    · intro m hm
      rcases mem_append.1 hm with hm | hm
      · exact h.accepted_le m hm
      · exact (mem_singleton.1 hm).trans_le (not_lt.1 hlt)
    · exact h.greatest.imp_right (mem_append_left _)
    · intro m hpos hle hage'
      change m ≤ state.greatestSeen at hle
      have hsame : state.greatestSeen - n = state.greatestSeen - m ↔ m = n := by omega
      rw [bitIsSet_setBit hage, Bool.or_eq_true, decide_eq_true_iff, h.marks m hpos hle hage',
        mem_append, mem_singleton]
      change (_ ∨ state.greatestSeen - n = state.greatestSeen - m) ↔ _
      rw [hsame]
      tauto

end Obsetync.Sequence
