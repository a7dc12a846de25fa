import Obsetync.Conflict
import Obsetync.EditScript

namespace Obsetync
open EditScript
open List hiding Disjoint

/-- The blocks of a line diff from old line `i` and new line `j` on: they follow each other without
a gap, equal blocks hold equal lines, and two changes never touch. -/
def ValidOps (old new : List String) (i j : Nat) (afterChange : Bool) : List DiffOp → Prop
  | [] => i = old.length ∧ j = new.length
  | .equal oldIndex newIndex len :: ops =>
    oldIndex = i ∧ newIndex = j ∧ 0 < len ∧ i + len ≤ old.length ∧ j + len ≤ new.length ∧
      (old.drop i).take len = (new.drop j).take len ∧ ValidOps old new (i + len) (j + len) false ops
  | .delete oldIndex oldLen newIndex :: ops =>
    afterChange = false ∧ oldIndex = i ∧ newIndex = j ∧ 0 < oldLen ∧ i + oldLen ≤ old.length ∧
      ValidOps old new (i + oldLen) j true ops
  | .insert oldIndex newIndex newLen :: ops =>
    afterChange = false ∧ oldIndex = i ∧ newIndex = j ∧ 0 < newLen ∧ j + newLen ≤ new.length ∧
      ValidOps old new i (j + newLen) true ops
  | .replace oldIndex oldLen newIndex newLen :: ops =>
    afterChange = false ∧ oldIndex = i ∧ newIndex = j ∧ 0 < oldLen ∧ 0 < newLen ∧
      i + oldLen ≤ old.length ∧ j + newLen ≤ new.length ∧
      ValidOps old new (i + oldLen) (j + newLen) true ops

instance ValidOps.decidable (old new : List String) :
    ∀ i j c ops, Decidable (ValidOps old new i j c ops)
  | _, _, _, [] => inferInstanceAs (Decidable (_ ∧ _))
  | i, j, _, .equal _ _ len :: ops =>
    have := decidable old new (i + len) (j + len) false ops
    inferInstanceAs (Decidable (_ ∧ _ ∧ _ ∧ _ ∧ _ ∧ _ ∧ _))
  | i, j, _, .delete _ oldLen _ :: ops =>
    have := decidable old new (i + oldLen) j true ops
    inferInstanceAs (Decidable (_ ∧ _ ∧ _ ∧ _ ∧ _ ∧ _))
  | i, j, _, .insert _ _ newLen :: ops =>
    have := decidable old new i (j + newLen) true ops
    inferInstanceAs (Decidable (_ ∧ _ ∧ _ ∧ _ ∧ _ ∧ _))
  | i, j, _, .replace _ oldLen _ newLen :: ops =>
    have := decidable old new (i + oldLen) (j + newLen) true ops
    inferInstanceAs (Decidable (_ ∧ _ ∧ _ ∧ _ ∧ _ ∧ _ ∧ _ ∧ _))

/-- What the merge relies on from the line differ: its old slices are the lines of the old text, its
new slices cut the new text into lines, and its blocks turn the one into the other. -/
structure ValidDiff (old new : String) (diff : TextDiff) : Prop where
  oldLines : diff.oldSlices.map (fun l => String.ofList (stripTerminator l.toList)) = lines old
  newText : (diff.newSlices.map String.toList).flatten = new.toList
  newLines : ∀ l ∈ diff.newSlices, '\n' ∉ l.toList.dropLast
  blocks : ValidOps diff.oldSlices diff.newSlices 0 0 false diff.ops

def MergeOp.edit (p : Nat × MergeOp) : Edit String := ⟨p.1, p.2.oldLen, p.2.newLines⟩

def scriptOf (diff : TextDiff) (ops : List DiffOp) : List (Edit String) :=
  (ops.filterMap (mergeOpOf diff)).map MergeOp.edit

/-- The changes of a diff as an edit script over the base lines. -/
def script (diff : TextDiff) : List (Edit String) := scriptOf diff diff.ops

@[simp] theorem scriptOf_nil {diff} : scriptOf diff [] = [] := rfl

@[simp] theorem scriptOf_equal {diff} : scriptOf diff (.equal i j len :: ops) = scriptOf diff ops := rfl

@[simp] theorem scriptOf_delete {diff} :
    scriptOf diff (.delete i len j :: ops) = ⟨i, len, []⟩ :: scriptOf diff ops := rfl

@[simp] theorem scriptOf_insert {diff} :
    scriptOf diff (.insert i j len :: ops) = ⟨i, 0, newLinesOf diff j len⟩ :: scriptOf diff ops := rfl

@[simp] theorem scriptOf_replace {diff} : scriptOf diff (.replace i k j len :: ops) =
      ⟨i, k, newLinesOf diff j len⟩ :: scriptOf diff ops := rfl

theorem ValidOps.le_length (h : ValidOps old new i j c ops) : i ≤ old.length := by
  induction ops generalizing i j c with
  | nil => exact h.1.le
  | cons op ops ih =>
    cases op with
    | equal oi ni len =>
      obtain ⟨-, -, -, hle, -⟩ := h
      omega
    | delete oi len ni =>
      obtain ⟨-, -, -, -, hle, -⟩ := h
      omega
    | insert oi ni len =>
      obtain ⟨-, -, -, -, -, hrest⟩ := h
      exact ih hrest
    | replace oi k ni len =>
      obtain ⟨-, -, -, -, -, hle, -⟩ := h
      omega

theorem newLinesOf_ne_nil {diff} (hlen : 0 < len) (hle : j + len ≤ diff.newSlices.length) :
    newLinesOf diff j len ≠ [] := by
  apply ne_nil_of_length_pos
  simp only [newLinesOf, length_map, length_take, length_drop]
  omega

theorem ValidOps.separated {diff} (h : ValidOps old diff.newSlices i j c ops) :
    Separated old.length (scriptOf diff ops) ∧ ∀ e ∈ scriptOf diff ops, i + c.toNat ≤ e.pos := by
  induction ops generalizing i j c with
  | nil => exact ⟨⟨List.Pairwise.nil, by simp, by simp⟩, by simp⟩
  | cons op ops ih =>
    cases op with
    | equal oi ni len =>
      obtain ⟨rfl, rfl, hlen, -, -, -, hrest⟩ := h
      obtain ⟨hs, hpos⟩ := ih hrest
      refine ⟨hs, fun e he => ?_⟩
      have := hpos e he
      have := c.toNat_le
      simp only [Bool.toNat_false] at *
      omega
    | delete oi len ni =>
      obtain ⟨rfl, rfl, rfl, hlen, hle, hrest⟩ := h
      obtain ⟨hs, hpos⟩ := ih hrest
      exact hs.cons_from hle (fun h => absurd h hlen.ne') hpos
    | insert oi ni len =>
      obtain ⟨rfl, rfl, rfl, hlen, hle, hrest⟩ := h
      obtain ⟨hs, hpos⟩ := ih hrest
      exact hs.cons_from hrest.le_length (fun _ => newLinesOf_ne_nil hlen hle) hpos
    | replace oi k ni len =>
      obtain ⟨rfl, rfl, rfl, hk, hlen, hle, hle', hrest⟩ := h
      obtain ⟨hs, hpos⟩ := ih hrest
      exact hs.cons_from hle (fun h => absurd h hk.ne') hpos

theorem ValidDiff.length_eq {diff} (h : ValidDiff old new diff) :
    diff.oldSlices.length = (lines old).length := by
  rw [← h.oldLines, length_map]

theorem ValidDiff.separated {diff} (h : ValidDiff old new diff) :
    Separated (lines old).length (script diff) :=
  h.length_eq ▸ h.blocks.separated.1

theorem foldl_insertOp_of_not_mem (ops : List (Nat × MergeOp)) (m : Nat → Option MergeOp)
    (h : ∀ p ∈ ops, p.1 ≠ i) : ops.foldl insertOp m i = m i := by
  induction ops generalizing m with
  | nil => rfl
  | cons p ops ih =>
    rw [foldl_cons, ih _ fun q hq => h q (mem_cons_of_mem _ hq),
      insertOp, Function.update_of_ne (h p mem_cons_self).symm]

theorem foldl_insertOp_of_mem (ops : List (Nat × MergeOp)) (m : Nat → Option MergeOp)
    (hd : ops.Pairwise fun p q => p.1 ≠ q.1) (h : p ∈ ops) :
    ops.foldl insertOp m p.1 = some p.2 := by
  induction ops generalizing m with
  | nil => cases h
  | cons q ops ih =>
    rw [foldl_cons]
    obtain ⟨hq, hd⟩ := pairwise_cons.1 hd
    rcases mem_cons.1 h with rfl | h
    · rw [foldl_insertOp_of_not_mem _ _ fun r hr => (hq r hr).symm, insertOp, Function.update_self]
    · exact ih _ hd h

theorem collectOps_eq_none {diff} (h : ∀ e ∈ script diff, e.pos ≠ i) : collectOps diff i = none :=
  foldl_insertOp_of_not_mem _ _ fun p hp => h (MergeOp.edit p) (mem_map_of_mem hp)

theorem collectOps_eq_some {diff} (hs : Separated n (script diff)) (he : e ∈ script diff) :
    collectOps diff e.pos = some ⟨e.removed, e.put⟩ := by
  obtain ⟨p, hp, rfl⟩ := mem_map.1 he
  refine foldl_insertOp_of_mem _ _ ?_ hp
  exact (pairwise_map.1 hs.apart).imp fun {p q} hlt => by
    simp only [MergeOp.edit] at hlt
    omega

theorem collectOps_cases {diff} (hs : Separated n (script diff)) (i : Nat) :
    (∃ e ∈ script diff, e.pos = i ∧ collectOps diff i = some ⟨e.removed, e.put⟩) ∨
      (∀ e ∈ script diff, e.pos ≠ i) ∧ collectOps diff i = none := by
  by_cases h : ∃ e ∈ script diff, e.pos = i
  · obtain ⟨e, he, rfl⟩ := h
    exact .inl ⟨e, he, rfl, collectOps_eq_some hs he⟩
  · push Not at h
    exact .inr ⟨h, collectOps_eq_none h⟩

theorem collectChangedRanges_eq (diff : TextDiff) :
    collectChangedRanges diff = (script diff).map fun e => ⟨e.pos, e.pos + e.removed⟩ := by
  rw [script, collectChangedRanges]
  induction diff.ops with
  | nil => rfl
  | cons op ops ih => cases op <;> simp_all

theorem disjoint_of_rangesOverlap (h : rangesOverlap (collectChangedRanges dl)
    (collectChangedRanges dr) = false) : Disjoint (script dl) (script dr) := by
  intro e he f hf
  rw [collectChangedRanges_eq, collectChangedRanges_eq] at h
  simp only [rangesOverlap, any_map, any_eq_false, Function.comp_apply] at h
  have hef := h e he
  simp only [any_eq_true, not_exists, not_and] at hef
  have := hef f hf
  simp only [Function.comp_apply, ChangeRange.overlaps, Bool.and_eq_true, decide_eq_true_eq] at this
  split at this <;> split at this <;> omega

/-- The loop keeps the walk of both scripts in its result: an edit at the index moves it over the
edit, at least by one. -/
theorem mergeLoop_eq {baseLines : List String} (hl : Separated baseLines.length (script dl))
    (hr : Separated baseLines.length (script dr)) (hd : Disjoint (script dl) (script dr))
    (hb : Boundary (script dl) (script dr) i) (hi : i ≤ baseLines.length)
    (hf : baseLines.length ≤ i + fuel) : mergeLoop baseLines (collectOps dl) (collectOps dr) fuel i
        (walkTo baseLines (script dl) (script dr) i) =
      some (walkTo baseLines (script dl) (script dr) baseLines.length) := by
  induction fuel generalizing i with
  | zero =>
    have : i = baseLines.length := by omega
    subst this
    rfl
  | succ fuel ih =>
    rcases hi.eq_or_lt with rfl | hlt
    · simp [mergeLoop]
    rw [mergeLoop, getElem?_eq_getElem hlt]
    rcases collectOps_cases hl i with ⟨e, he, hei, hel⟩ | ⟨hnl, hel⟩ <;>
      rcases collectOps_cases hr i with ⟨f, hf', hfi, hfr⟩ | ⟨hnr, hfr⟩
    · have := hd e he f hf'
      omega
    · obtain ⟨hb', hw⟩ := (@Boundary.put _ baseLines) hl hd he
      have := hl.bounded e he
      subst hei
      simp only [hel, hfr, ← hw]
      exact ih hb' (by omega) (by omega)
    · obtain ⟨hb', hw⟩ := Boundary.put hr hd.symm hf'
      have := hr.bounded f hf'
      subst hfi
      simp only [hel, hfr]
      rw [walkTo_comm hd, ← hw, ← walkTo_comm hd]
      exact ih hb'.symm (by omega) (by omega)
    · obtain ⟨hb', hw⟩ := hb.keep fun e he =>
        (mem_append.1 he).elim (hnl e) (hnr e)
      simp only [hel, hfr]
      have := ih hb' (by omega) (by omega)
      rwa [walkTo_succ, hw, getElem?_eq_getElem hlt] at this

theorem trailing_eq_putAt {diff} (hs : Separated n (script diff)) :
    trailing (collectOps diff) k = putAt (script diff) k := by
  rcases collectOps_cases hs k with ⟨e, he, rfl, hop⟩ | ⟨hn, hop⟩
  · rw [trailing, hop, hs.putAt_eq he]
    rfl
  · rw [trailing, hop, putAt_eq_nil hn]
    rfl

theorem mergedLines_eq_walk (hl : Separated baseLines.length (script dl))
    (hr : Separated baseLines.length (script dr)) (hd : Disjoint (script dl) (script dr)) :
    mergedLines baseLines (collectOps dl) (collectOps dr) =
      some (walk baseLines (script dl) (script dr)) := by
  have hloop := (@mergeLoop_eq _ _ 0 baseLines.length) hl hr hd
    (fun e _ h => absurd h (Nat.not_lt_zero _)) (Nat.zero_le _) (by omega)
  rw [walkTo_zero] at hloop
  rw [mergedLines, hloop, Option.map_some, trailing_eq_putAt hl, trailing_eq_putAt hr,
    walk_eq_walkTo]

theorem threeWayTextMerge_eq (fromLines : String → String → TextDiff)
    (hbase : fromUtf8Lossy base = baseStr) (hloc : fromUtf8Lossy loc = locStr)
    (hremote : fromUtf8Lossy remote = remoteStr)
    (hl : ValidDiff baseStr locStr (fromLines baseStr locStr))
    (hr : ValidDiff baseStr remoteStr (fromLines baseStr remoteStr)) :
    threeWayTextMerge fromLines base loc remote =
      if rangesOverlap (collectChangedRanges (fromLines baseStr locStr))
          (collectChangedRanges (fromLines baseStr remoteStr)) then .overlap
      else .merged (asBytes (renderLines baseStr (walk (lines baseStr)
        (script (fromLines baseStr locStr)) (script (fromLines baseStr remoteStr))))) := by
  subst hbase hloc hremote
  rw [threeWayTextMerge]
  split_ifs with ho
  · rfl
  · have hd := disjoint_of_rangesOverlap (Bool.eq_false_iff.2 ho)
    rw [applyNonOverlappingChanges, mergedLines_eq_walk hl.separated hr.separated hd]
    rfl

theorem ValidDiff.not_mem_put {diff} (h : ValidDiff old new diff) (he : e ∈ script diff) (hl : l ∈ e.put) :
    '\n' ∉ l.toList := by
  have hnew {j len : Nat} (hm : l ∈ newLinesOf diff j len) : '\n' ∉ l.toList := by
    obtain ⟨slice, hs, rfl⟩ := mem_map.1 hm
    exact not_mem_trimEndMatches (h.newLines slice (mem_of_mem_drop (mem_of_mem_take hs)))
  obtain ⟨p, hp, rfl⟩ := mem_map.1 he
  obtain ⟨op, -, hop⟩ := mem_filterMap.1 hp
  cases op with
  | equal oi ni len => cases hop
  | delete oi len ni =>
    cases hop
    cases hl
  | insert oi ni len =>
    cases hop
    exact hnew hl
  | replace oi k ni len =>
    cases hop
    exact hnew hl

theorem renderLines_ne (hls : ∀ l ∈ ls, '\n' ∉ l.toList) (hms : ∀ l ∈ ms, '\n' ∉ l.toList)
    (hne : ls ≠ []) (hlt : ls.length < ms.length) : renderLines base ls ≠ renderLines base ms := by
  intro h
  have hj : joinLines ls = joinLines ms := by
    rw [renderLines, renderLines] at h
    split_ifs at h
    · exact String.append_left_inj _ |>.1 h
    · exact h
  have hc := count_joinLines ls hls
  rw [hj, count_joinLines ms hms] at hc
  have := length_pos_iff.2 hne
  omega

def sampleDiff (_ new : String) : TextDiff :=
  if new = "a\nx\nb\n" then
    ⟨["a\n", "b\n"], ["a\n", "x\n", "b\n"], [.equal 0 0 1, .insert 1 1 1, .equal 1 2 1]⟩
  else if new = "a\nc\n" then
    ⟨["a\n", "b\n"], ["a\n", "c\n"], [.equal 0 0 1, .replace 1 1 1 1]⟩
  else ⟨["a\n", "b\n"], ["a\n", "b\n"], [.equal 0 0 2]⟩

end Obsetync
