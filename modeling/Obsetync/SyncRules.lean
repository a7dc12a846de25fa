import Obsetync.Text
import Obsetync.Wildcard

namespace Obsetync

open Wildcard List

inductive BinaryStrategy where
  | conflictCopy
  | localOnly
  | immutable
  deriving DecidableEq, Repr

def asterisk : UInt8 := 42

def questionMark : UInt8 := 63

/-- The variables of the loop; `starPi` is `none` for `usize::MAX`. -/
structure GlobState where
  pi : Nat := 0
  ti : Nat := 0
  starPi : Option Nat := none
  starTi : Nat := 0
  deriving DecidableEq, Repr

def globStep (pattern text : Bytes) (s : GlobState) : Option GlobState :=
  if s.pi < pattern.length ∧ (pattern[s.pi]? = some questionMark ∨ pattern[s.pi]? = text[s.ti]?) then
    some { s with pi := s.pi + 1, ti := s.ti + 1 }
  else if s.pi < pattern.length ∧ pattern[s.pi]? = some asterisk then
    some { s with starPi := some s.pi, starTi := s.ti, pi := s.pi + 1 }
  else match s.starPi with
    | some starPi => some { s with pi := starPi + 1, starTi := s.starTi + 1, ti := s.starTi + 1 }
    | none => none

/-- The first loop, for at most `fuel` turns. -/
def globLoop (pattern text : Bytes) : Nat → GlobState → Option GlobState
  | 0, _ => none
  | fuel + 1, s =>
    if s.ti < text.length then (globStep pattern text s).bind (globLoop pattern text fuel) else some s

/-- What is returned after the loop. -/
def globAnswer (pattern : Bytes) : Option GlobState → Bool
  | none => false
  | some s => (pattern.drop s.pi).dropWhile (· = asterisk) = []

def globMatch (pattern text : String) : Bool :=
  let pattern := asBytes pattern
  let text := asBytes text
  globAnswer pattern (globLoop pattern text ((text.length + 1) * (pattern.length + 1)) {})

/-- What `path.rsplit('/')` gives first. -/
def fileName (path : String) : String := String.ofList ((path.toList.splitOn '/').getLastD path.toList)

def strategyFor (binaryRules : List (String × BinaryStrategy)) (path : String) : BinaryStrategy :=
  match binaryRules.find? fun rule => globMatch rule.1 (fileName path) with
  | some rule => rule.2
  | none => .conflictCopy

def byteToken (b : UInt8) : Token UInt8 :=
  if b = asterisk then .star else if b = questionMark then .one else .lit b

section

variable {p t : Bytes} {s s' : GlobState}

theorem byteToken_eq_star : byteToken b = .star ↔ b = asterisk := by
  unfold byteToken
  split_ifs with h1 h2
  · exact iff_of_true rfl h1
  · exact iff_of_false (fun h => nomatch h) h1
  · exact iff_of_false (fun h => nomatch h) h1

/-- The pattern from the star on could take the text from a later place on. -/
def Retry (p t : Bytes) (s : GlobState) : Prop :=
  ∃ starPi, s.starPi = some starPi ∧ ∃ j, s.starTi < j ∧ j ≤ t.length ∧
    Matches ((p.drop (starPi + 1)).map byteToken) (t.drop j)

def Live (p t : Bytes) (s : GlobState) : Prop :=
  Matches ((p.drop s.pi).map byteToken) (t.drop s.ti) ∨ Retry p t s

/-- Between the last star and the place of the pattern there is no star, and the text has been
followed by as many bytes. -/
structure Seeks (p t : Bytes) (s : GlobState) : Prop where
  ti_le : s.ti ≤ t.length
  pi_le : s.pi ≤ p.length
  starTi_le : s.starTi ≤ s.ti
  star : ∀ starPi, s.starPi = some starPi → s.pi = starPi + 1 + (s.ti - s.starTi) ∧
    asterisk ∉ (p.drop (starPi + 1)).take (s.ti - s.starTi)

def globMeasure (p t : Bytes) (s : GlobState) : Nat :=
  (t.length - s.starTi) * (p.length + 1) + (p.length - s.pi)

theorem token_star_not_mem {segment : Bytes} (h : asterisk ∉ segment) :
    Token.star ∉ segment.map byteToken := by
  intro hmem
  obtain ⟨b, hb, hstar⟩ := mem_map.1 hmem
  exact h (byteToken_eq_star.1 hstar ▸ hb)

theorem Seeks.drop_star (h : Seeks p t s) (hstar : s.starPi = some starPi) :
    p.drop (starPi + 1) = (p.drop (starPi + 1)).take (s.ti - s.starTi) ++ p.drop s.pi := by
  have hdrop : p.drop s.pi = (p.drop (starPi + 1)).drop (s.ti - s.starTi) := by
    rw [drop_drop, (h.star starPi hstar).1]
  rw [hdrop, take_append_drop]

theorem Seeks.length_segment (h : Seeks p t s) (hstar : s.starPi = some starPi) :
    ((p.drop (starPi + 1)).take (s.ti - s.starTi)).length = s.ti - s.starTi := by
  have := (h.star starPi hstar).1
  have := h.pi_le
  rw [length_take, length_drop]
  omega

theorem Seeks.retry_drop (h : Seeks p t s) (hretry : Retry p t s) :
    ∃ k, s.ti < k ∧ k ≤ t.length ∧ Matches ((p.drop s.pi).map byteToken) (t.drop k) := by
  obtain ⟨starPi, hstar, j, hj, hjle, hmatch⟩ := hretry
  rw [h.drop_star hstar, map_append] at hmatch
  obtain ⟨hlen, hrest⟩ := hmatch.drop_of_no_star (token_star_not_mem (h.star starPi hstar).2)
  rw [length_map, h.length_segment hstar, length_drop] at hlen
  rw [length_map, h.length_segment hstar, drop_drop] at hrest
  have hle := h.starTi_le
  exact ⟨j + (s.ti - s.starTi), by omega, by omega, hrest⟩

theorem globAnswer_some (h : Seeks p t s) (hend : ¬ s.ti < t.length) :
    globAnswer p (some s) = true ↔ Live p t s := by
  have htext : t.drop s.ti = [] := drop_eq_nil_of_le (not_lt.1 hend)
  have hretry : ¬ Retry p t s := by
    intro hretry
    obtain ⟨k, hk, hle, -⟩ := h.retry_drop hretry
    omega
  rw [Live, htext, or_iff_left hretry, matches_nil_right, forall_mem_map]
  simp only [byteToken_eq_star]
  rw [globAnswer, decide_eq_true_iff, dropWhile_eq_nil_iff]
  simp only [decide_eq_true_eq]

theorem drop_getElem? {l : List α} (h : l[i]? = some a) : l.drop i = a :: l.drop (i + 1) := by
  obtain ⟨hi, rfl⟩ := List.getElem?_eq_some_iff.1 h
  exact drop_eq_getElem_cons hi

theorem take_drop_succ {l : Bytes} (h : l[i + n]? = some a) :
    (l.drop i).take (n + 1) = (l.drop i).take n ++ [a] := by
  rw [take_add_one, getElem?_drop, h]
  rfl

theorem live_advance {b c : UInt8} (hb : p[s.pi]? = some b) (hc : t[s.ti]? = some c)
    (hstar : b ≠ asterisk) (hbc : b = questionMark ∨ b = c) :
    Live p t { s with pi := s.pi + 1, ti := s.ti + 1 } ↔ Live p t s := by
  refine or_congr ?_ Iff.rfl
  dsimp only
  rw [drop_getElem? hb, drop_getElem? hc, map_cons, byteToken, if_neg hstar]
  split_ifs with hone
  · exact matches_one_cons.symm
  · rw [matches_lit_cons, and_iff_right (hbc.resolve_left hone)]

theorem seeks_advance (h : Seeks p t s) {b c : UInt8} (hb : p[s.pi]? = some b) (hc : t[s.ti]? = some c)
    (hstar : b ≠ asterisk) : Seeks p t { s with pi := s.pi + 1, ti := s.ti + 1 } := by
  have hpi : s.pi < p.length := (List.getElem?_eq_some_iff.1 hb).1
  have hti : s.ti < t.length := (List.getElem?_eq_some_iff.1 hc).1
  have hle := h.starTi_le
  refine ⟨hti, hpi, by dsimp only; omega, fun starPi hs => ?_⟩
  obtain ⟨hplace, hsegment⟩ := h.star starPi hs
  have hsub : s.ti + 1 - s.starTi = (s.ti - s.starTi) + 1 := by omega
  dsimp only
  rw [hsub, take_drop_succ (hplace ▸ hb)]
  refine ⟨by omega, fun hmem => ?_⟩
  rcases mem_append.1 hmem with hmem | hmem
  · exact hsegment hmem
  · exact hstar (mem_singleton.1 hmem).symm

theorem live_star (h : Seeks p t s) (hb : p[s.pi]? = some asterisk) :
    Live p t { s with starPi := some s.pi, starTi := s.ti, pi := s.pi + 1 } ↔ Live p t s := by
  have hsplit : Matches ((p.drop s.pi).map byteToken) (t.drop s.ti) ↔
      ∃ j, s.ti ≤ j ∧ j ≤ t.length ∧ Matches ((p.drop (s.pi + 1)).map byteToken) (t.drop j) := by
    rw [drop_getElem? hb, map_cons, byteToken, if_pos rfl, matches_star]
    constructor
    · rintro ⟨u, v, huv, hmatch⟩
      have hlen := congrArg List.length huv
      rw [length_drop, length_append] at hlen
      refine ⟨s.ti + u.length, Nat.le_add_right _ _, ?_, ?_⟩
      · have := h.ti_le
        omega
      · have hdrop : t.drop (s.ti + u.length) = v := by
          rw [← drop_drop, huv, drop_left]
        rwa [hdrop]
    · rintro ⟨j, hj, -, hmatch⟩
      refine ⟨(t.drop s.ti).take (j - s.ti), t.drop j, ?_, hmatch⟩
      have hdrop : t.drop j = (t.drop s.ti).drop (j - s.ti) := by
        rw [drop_drop, Nat.add_sub_cancel' hj]
      rw [hdrop, take_append_drop]
  constructor
  · rintro (hmatch | ⟨starPi, hstar, j, hj, hle, hmatch⟩)
    · exact .inl (hsplit.2 ⟨s.ti, le_rfl, h.ti_le, hmatch⟩)
    · cases hstar
      exact .inl (hsplit.2 ⟨j, hj.le, hle, hmatch⟩)
  · have hnew : Matches ((p.drop s.pi).map byteToken) (t.drop s.ti) →
        Live p t { s with starPi := some s.pi, starTi := s.ti, pi := s.pi + 1 } := by
      intro hmatch
      obtain ⟨j, hj, hle, hmatch⟩ := hsplit.1 hmatch
      rcases hj.lt_or_eq with hj | rfl
      · exact .inr ⟨s.pi, rfl, j, hj, hle, hmatch⟩
      · exact .inl hmatch
    rintro (hmatch | hretry)
    · exact hnew hmatch
    · obtain ⟨k, hk, -, hmatch⟩ := h.retry_drop hretry
      rw [drop_getElem? hb, map_cons, byteToken, if_pos rfl] at hmatch hnew
      apply hnew
      have hdrop : t.drop k = (t.drop s.ti).drop (k - s.ti) := by
        rw [drop_drop, Nat.add_sub_cancel' hk.le]
      rw [← take_append_drop (k - s.ti) (t.drop s.ti), ← hdrop]
      exact hmatch.star_append _

theorem not_matches_of_mismatch {c : UInt8} (hc : t[s.ti]? = some c)
    (hno : ∀ b, p[s.pi]? = some b → b ≠ asterisk ∧ b ≠ questionMark ∧ b ≠ c) :
    ¬ Matches ((p.drop s.pi).map byteToken) (t.drop s.ti) := by
  rw [drop_getElem? hc]
  cases hb : p[s.pi]? with
  | none =>
    rw [drop_eq_nil_of_le (List.getElem?_eq_none_iff.1 hb), map_nil, matches_nil_left]
    exact cons_ne_nil _ _
  | some b =>
    obtain ⟨hstar, hone, hne⟩ := hno b hb
    rw [drop_getElem? hb, map_cons, byteToken, if_neg hstar, if_neg hone, matches_lit_cons]
    exact fun hand => hne hand.1

theorem live_retry (hstar : s.starPi = some starPi) (hle : s.starTi < t.length)
    (hno : ¬ Matches ((p.drop s.pi).map byteToken) (t.drop s.ti)) :
    Live p t { s with pi := starPi + 1, starTi := s.starTi + 1, ti := s.starTi + 1 } ↔ Live p t s := by
  rw [Live, Live, or_iff_right hno]
  constructor
  · rintro (hmatch | ⟨_, hstar', j, hj, hjle, hmatch⟩)
    · exact ⟨starPi, hstar, s.starTi + 1, Nat.lt_succ_self _, hle, hmatch⟩
    · rw [hstar] at hstar'
      cases hstar'
      exact ⟨starPi, hstar, j, Nat.lt_of_succ_lt hj, hjle, hmatch⟩
  · rintro ⟨_, hstar', j, hj, hjle, hmatch⟩
    rw [hstar] at hstar'
    cases hstar'
    rcases Nat.lt_or_eq_of_le (Nat.succ_le_of_lt hj) with hj | rfl
    · exact .inr ⟨starPi, hstar, j, hj, hjle, hmatch⟩
    · exact .inl hmatch

theorem globStep_advance (hb : p[s.pi]? = some b) (hc : t[s.ti]? = some c)
    (hbc : b = questionMark ∨ b = c) :
    globStep p t s = some { s with pi := s.pi + 1, ti := s.ti + 1 } := by
  rw [globStep, hb, hc]
  exact if_pos ⟨(List.getElem?_eq_some_iff.1 hb).1, hbc.imp (congrArg some) (congrArg some)⟩

theorem globStep_of_not_advance (hc : t[s.ti]? = some c)
    (hno : ∀ b, p[s.pi]? = some b → b ≠ questionMark ∧ b ≠ c) :
    globStep p t s = if p[s.pi]? = some asterisk then
        some { s with starPi := some s.pi, starTi := s.ti, pi := s.pi + 1 }
      else s.starPi.map fun starPi =>
        { s with pi := starPi + 1, starTi := s.starTi + 1, ti := s.starTi + 1 } := by
  rw [globStep, if_neg]
  · have hlt : s.pi < p.length ∧ p[s.pi]? = some asterisk ↔ p[s.pi]? = some asterisk :=
      and_iff_right_of_imp fun h => (List.getElem?_eq_some_iff.1 h).1
    rw [if_congr hlt rfl rfl]
    cases s.starPi <;> rfl
  · rintro ⟨hlt, heq⟩
    obtain ⟨hone, hne⟩ := hno _ (getElem?_eq_getElem hlt)
    rw [getElem?_eq_getElem hlt, hc, Option.some.injEq, Option.some.injEq] at heq
    exact heq.elim hone hne

theorem measure_advance (h : s.pi < p.length) :
    globMeasure p t { s with pi := s.pi + 1, ti := s.ti + 1 } < globMeasure p t s := by
  unfold globMeasure
  dsimp only
  omega

theorem measure_star (h : s.pi < p.length) (hle : s.starTi ≤ s.ti) :
    globMeasure p t { s with starPi := some s.pi, starTi := s.ti, pi := s.pi + 1 } <
      globMeasure p t s := by
  have hmul : (t.length - s.ti) * (p.length + 1) ≤ (t.length - s.starTi) * (p.length + 1) :=
    Nat.mul_le_mul_right _ (by omega)
  unfold globMeasure
  dsimp only
  omega

theorem measure_retry (starPi : Nat) (h : s.starTi < t.length) :
    globMeasure p t { s with pi := starPi + 1, starTi := s.starTi + 1, ti := s.starTi + 1 } <
      globMeasure p t s := by
  have hmul : (t.length - s.starTi) * (p.length + 1) =
      (t.length - (s.starTi + 1)) * (p.length + 1) + (p.length + 1) := by
    rw [← Nat.succ_mul]
    congr 1
    omega
  unfold globMeasure
  dsimp only
  omega

theorem globStep_spec (hplain : asterisk ∉ p ∨ asterisk ∉ t) (h : Seeks p t s) (hti : s.ti < t.length) :
    (globStep p t s = none ∧ ¬ Live p t s) ∨
      ∃ s', globStep p t s = some s' ∧ Seeks p t s' ∧ globMeasure p t s' < globMeasure p t s ∧
        (Live p t s' ↔ Live p t s) := by
  obtain ⟨c, hc⟩ : ∃ c, t[s.ti]? = some c := ⟨_, getElem?_eq_getElem hti⟩
  by_cases hfits : ∃ b, p[s.pi]? = some b ∧ (b = questionMark ∨ b = c)
  · obtain ⟨b, hb, hbc⟩ := hfits
    have hstar : b ≠ asterisk := by
      rintro rfl
      rcases hbc with hbc | rfl
      · exact absurd hbc (by decide)
      · exact hplain.elim (fun hp => hp (mem_of_getElem? hb)) fun ht => ht (mem_of_getElem? hc)
    exact .inr ⟨_, globStep_advance hb hc hbc, seeks_advance h hb hc hstar,
      measure_advance (List.getElem?_eq_some_iff.1 hb).1, live_advance hb hc hstar hbc⟩
  · have hno : ∀ b, p[s.pi]? = some b → b ≠ questionMark ∧ b ≠ c :=
      fun b hb => not_or.1 fun hbc => hfits ⟨b, hb, hbc⟩
    rw [globStep_of_not_advance hc hno]
    by_cases hstar : p[s.pi]? = some asterisk
    · rw [if_pos hstar]
      have hpi : s.pi < p.length := (List.getElem?_eq_some_iff.1 hstar).1
      refine .inr ⟨_, rfl, ⟨h.ti_le, hpi, le_rfl, ?_⟩, measure_star hpi h.starTi_le, live_star h hstar⟩
      intro starPi heq
      cases heq
      dsimp only
      rw [Nat.sub_self]
      exact ⟨rfl, not_mem_nil⟩
    · rw [if_neg hstar]
      have hmiss := not_matches_of_mismatch (s := s) hc
        fun b hb => ⟨fun heq => hstar (heq ▸ hb), hno b hb⟩
      have hle := h.starTi_le
      cases hs : s.starPi with
      | none =>
        refine .inl ⟨rfl, ?_⟩
        rintro (hmatch | ⟨starPi, hsome, -⟩)
        · exact hmiss hmatch
        · rw [hs] at hsome
          cases hsome
      | some starPi =>
        have hplace := (h.star starPi hs).1
        have hpi := h.pi_le
        have hlive := live_retry hs (by omega) hmiss
        have hless := measure_retry (p := p) (t := t) (s := s) starPi (by omega)
        rw [hs] at hlive hless
        refine .inr ⟨_, rfl, ⟨?_, ?_, le_rfl, ?_⟩, hless, hlive⟩
        · dsimp only
          omega
        · dsimp only
          omega
        · intro starPi' heq
          cases heq
          dsimp only
          rw [Nat.sub_self]
          exact ⟨rfl, not_mem_nil⟩

theorem globLoop_spec (hplain : asterisk ∉ p ∨ asterisk ∉ t) (h : Seeks p t s)
    (hfuel : globMeasure p t s < fuel) :
    globAnswer p (globLoop p t fuel s) = true ↔ Live p t s := by
  induction fuel generalizing s with
  | zero => exact absurd hfuel (Nat.not_lt_zero _)
  | succ fuel ih =>
    rw [globLoop]
    by_cases hti : s.ti < t.length
    · rw [if_pos hti]
      rcases globStep_spec hplain h hti with ⟨hstep, hdead⟩ | ⟨s', hstep, hs', hlt, hlive⟩
      · rw [hstep]
        exact iff_of_false Bool.false_ne_true hdead
      · rw [hstep, Option.bind_some, ih hs' (by omega), hlive]
    · rw [if_neg hti]
      exact globAnswer_some h hti

end

theorem globMatch_iff_bytes (hplain : asterisk ∉ asBytes pattern ∨ asterisk ∉ asBytes text) :
    globMatch pattern text = true ↔ Matches ((asBytes pattern).map byteToken) (asBytes text) := by
  have hseeks : Seeks (asBytes pattern) (asBytes text) {} :=
    ⟨Nat.zero_le _, Nat.zero_le _, le_rfl, fun _ h => nomatch h⟩
  unfold globMatch
  rw [globLoop_spec hplain hseeks]
  · exact or_iff_left fun ⟨_, h, _⟩ => nomatch h
  · rw [globMeasure, Nat.sub_zero, Nat.sub_zero, Nat.succ_mul]
    omega

end Obsetync
