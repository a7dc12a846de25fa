import Obsetync.TextMerge
import Obsetync.Utf8

namespace Obsetync
open EditScript
open List hiding Disjoint

def loneCrFree : List Char → Bool
  | [] => true
  | c :: cs => (c ≠ '\r' || cs.head? = some '\n') && loneCrFree cs

/-- A line diff of texts whose lines end at newlines only. -/
structure LineDiff (old new : String) (diff : TextDiff) : Prop where
  oldSlices : diff.oldSlices.map String.toList = splitInclusive old.toList
  newSlices : diff.newSlices.map String.toList = splitInclusive new.toList
  blocks : ValidOps diff.oldSlices diff.newSlices 0 0 false diff.ops

/-- What the merge relies on from `similar`, which ends a line also behind a lone carriage return. -/
structure Differ (fromLines : String → String → TextDiff) : Prop where
  lineDiff : ∀ old new, loneCrFree old.toList → loneCrFree new.toList →
    LineDiff old new (fromLines old new)
  unchanged : ∀ text, loneCrFree text.toList → script (fromLines text text) = []

theorem flatten_splitInclusive : (splitInclusive cs).flatten = cs := by
  induction cs with
  | nil => rfl
  | cons c cs ih =>
    rw [splitInclusive]
    split_ifs with hc
    · rw [flatten_cons, ih]
      rfl
    · split
      · next heq =>
        rw [heq] at ih
        rw [← ih]
        rfl
      · next l ls heq =>
        rw [heq] at ih
        rw [← ih]
        rfl

theorem getLast?_of_mem_splitInclusive :
    ∀ l ∈ (splitInclusive cs).dropLast, l.getLast? = some '\n' := by
  induction cs with
  | nil => exact forall_mem_nil _
  | cons c cs ih =>
    rw [splitInclusive]
    split_ifs with hc
    · intro l hl
      cases hrest : splitInclusive cs with
      | nil =>
        rw [hrest] at hl
        cases hl
      | cons m ms =>
        rw [hrest, dropLast_cons_of_ne_nil (cons_ne_nil _ _)] at hl
        rcases mem_cons.1 hl with rfl | hl
        · rw [hc]
          rfl
        · exact ih l (hrest ▸ hl)
    · split
      · exact forall_mem_nil _
      · next m ms heq =>
        rw [heq] at ih
        cases ms with
        | nil => exact forall_mem_nil _
        | cons m' ms =>
          rw [dropLast_cons_of_ne_nil (cons_ne_nil _ _)] at ih ⊢
          intro l hl
          rcases mem_cons.1 hl with rfl | hl
          · have hm := ih m mem_cons_self
            cases m with
            | nil => cases hm
            | cons a m => rwa [getLast?_cons_cons]
          · exact ih l (mem_cons_of_mem _ hl)

theorem ne_nil_of_mem_splitInclusive : ∀ l ∈ splitInclusive cs, l ≠ [] := by
  induction cs with
  | nil => exact nofun
  | cons c cs ih =>
    rw [splitInclusive]
    split_ifs with hc
    · intro l hl
      rcases mem_cons.1 hl with rfl | hl
      · exact cons_ne_nil _ _
      · exact ih l hl
    · split
      · intro l hl
        rw [mem_singleton.1 hl]
        exact cons_ne_nil _ _
      · next m ms heq =>
        intro l hl
        rcases mem_cons.1 hl with rfl | hl
        · exact cons_ne_nil _ _
        · exact ih l (heq ▸ mem_cons_of_mem _ hl)

def unended (l : List Char) : List Char := l.rdropWhile (· == '\n')

theorem unended_of_newline (hd : '\n' ∉ l.dropLast) (hl : l.getLast? = some '\n') :
    unended l ++ ['\n'] = l := by
  obtain ⟨cs, rfl⟩ := getLast?_eq_some_iff.1 hl
  rw [dropLast_concat] at hd
  have hcs : cs.rdropWhile (· == '\n') = cs := by
    rw [rdropWhile_eq_self_iff]
    intro hne heq
    exact hd (beq_iff_eq.1 heq ▸ getLast_mem hne)
  rw [unended, rdropWhile_concat_pos _ _ _ (by simp), hcs]

theorem unended_of_open (hl : l.getLast? ≠ some '\n') : unended l = l := by
  rw [unended, rdropWhile_eq_self_iff]
  intro hne heq
  rw [getLast?_eq_some_getLast hne] at hl
  exact hl (congrArg some (beq_iff_eq.1 heq))

def ending (cs : List Char) : List Char := if cs.getLast? = some '\n' then ['\n'] else []

theorem intercalate_unended {pieces : List (List Char)} (hd : ∀ l ∈ pieces, '\n' ∉ l.dropLast)
    (hlast : ∀ l ∈ pieces.dropLast, l.getLast? = some '\n') (hne : ∀ l ∈ pieces, l ≠ []) :
    ['\n'].intercalate (pieces.map unended) ++ ending pieces.flatten = pieces.flatten := by
  induction pieces with
  | nil => rfl
  | cons l pieces ih =>
    cases pieces with
    | nil =>
      rw [map_cons, map_nil, intercalate_singleton, flatten_singleton, ending]
      split_ifs with hl
      · exact unended_of_newline (hd l mem_cons_self) hl
      · rw [append_nil, unended_of_open hl]
    | cons m pieces =>
      rw [dropLast_cons_of_ne_nil (cons_ne_nil _ _)] at hlast
      have hrest := ih (fun x hx => hd x (mem_cons_of_mem _ hx))
        (fun x hx => hlast x (mem_cons_of_mem _ hx)) fun x hx => hne x (mem_cons_of_mem _ hx)
      have hend : ending (l :: m :: pieces).flatten = ending (m :: pieces).flatten := by
        have hnil : (m :: pieces).flatten ≠ [] := by
          rw [ne_eq, flatten_eq_nil_iff]
          exact fun h => hne m (by simp) (h m mem_cons_self)
        rw [ending, ending, flatten_cons, getLast?_append_of_ne_nil _ hnil]
      have hl := unended_of_newline (hd l mem_cons_self) (hlast l mem_cons_self)
      rw [hend, map_cons, map_cons, intercalate_cons_cons, ← map_cons,
        append_assoc, hrest, flatten_cons (l := l), ← hl]
      simp [hl]

def lineOf (slice : String) : String := String.ofList (stripTerminator slice.toList)

/-- The new slices of a diff that were lines of the old text. -/
def keptSlices (diff : TextDiff) (ops : List DiffOp) : List String :=
  ops.flatMap fun
    | .equal _ newIndex len => (diff.newSlices.drop newIndex).take len
    | _ => []

/-- The lines of the new text, those of kept slices as lines of the old one. -/
def newLinesFrom (diff : TextDiff) (ops : List DiffOp) : List String :=
  ops.flatMap fun
    | .equal _ newIndex len => ((diff.newSlices.drop newIndex).take len).map lineOf
    | .delete _ _ _ => []
    | .insert _ newIndex newLen => newLinesOf diff newIndex newLen
    | .replace _ _ newIndex newLen => newLinesOf diff newIndex newLen

theorem ValidOps.applyFrom_eq {diff} (h : ValidOps old diff.newSlices i j c ops) :
    applyFrom (old.map lineOf) i (scriptOf diff ops) = newLinesFrom diff ops := by
  induction ops generalizing i j c with
  | nil =>
    rw [scriptOf_nil, applyFrom, h.1, drop_eq_nil_of_le (by simp)]
    rfl
  | cons op ops ih =>
    cases op with
    | equal oi ni len =>
      obtain ⟨rfl, rfl, -, -, -, heq, hrest⟩ := h
      have hskip : ∀ e ∈ scriptOf diff ops, oi + len ≤ e.pos := hrest.separated.2
      rw [scriptOf_equal, applyFrom_skip hskip, ih hrest, ← map_drop, ← map_take, heq]
      rfl
    | delete oi len ni =>
      obtain ⟨-, rfl, rfl, -, -, hrest⟩ := h
      rw [scriptOf_delete, applyFrom, Nat.sub_self, take_zero, nil_append, ih hrest]
      rfl
    | insert oi ni len =>
      obtain ⟨-, rfl, rfl, -, -, hrest⟩ := h
      rw [scriptOf_insert, applyFrom, Nat.sub_self, take_zero, nil_append]
      exact congrArg _ (ih hrest)
    | replace oi k ni len =>
      obtain ⟨-, rfl, rfl, -, -, -, -, hrest⟩ := h
      rw [scriptOf_replace, applyFrom, Nat.sub_self, take_zero, nil_append, ih hrest]
      rfl

theorem append_eq_drop_iff {put rest slices : List String} (hput : put.length = len)
    (hle : j + len ≤ slices.length) : put ++ rest = (slices.drop j).map f ↔
      put = ((slices.drop j).take len).map f ∧ rest = (slices.drop (j + len)).map f := by
  have hsplit : (slices.drop j).map f =
      ((slices.drop j).take len).map f ++ (slices.drop (j + len)).map f := by
    rw [← map_append, ← drop_drop, take_append_drop]
  have hlen : put.length = (((slices.drop j).take len).map f).length := by
    rw [hput, length_map, length_take, length_drop]
    omega
  rw [hsplit]
  constructor
  · exact fun h => append_inj h hlen
  · rintro ⟨rfl, rfl⟩
    rfl

theorem ValidOps.newLinesFrom_eq_iff {diff} (h : ValidOps old diff.newSlices i j c ops) :
    newLinesFrom diff ops = (diff.newSlices.drop j).map (trimEndMatches '\n') ↔
      ∀ l ∈ keptSlices diff ops, lineOf l = trimEndMatches '\n' l := by
  induction ops generalizing i j c with
  | nil =>
    rw [h.2, drop_length]
    exact ⟨fun _ => nofun, fun _ => rfl⟩
  | cons op ops ih =>
    cases op with
    | equal oi ni len =>
      obtain ⟨rfl, rfl, -, -, hle, -, hrest⟩ := h
      change _ ++ newLinesFrom diff ops = _ ↔ ∀ l ∈ _ ++ keptSlices diff ops, _
      rw [append_eq_drop_iff (by simp; omega) hle, ih hrest, map_inj_left]
      simp only [mem_append, or_imp, forall_and]
    | delete oi len ni =>
      obtain ⟨-, rfl, rfl, -, -, hrest⟩ := h
      exact ih hrest
    | insert oi ni len =>
      obtain ⟨-, rfl, rfl, -, hle, hrest⟩ := h
      change newLinesOf diff ni len ++ newLinesFrom diff ops = _ ↔ ∀ l ∈ keptSlices diff ops, _
      rw [append_eq_drop_iff (by simp [newLinesOf]; omega) hle, ih hrest]
      exact and_iff_right rfl
    | replace oi k ni len =>
      obtain ⟨-, rfl, rfl, -, -, -, hle, hrest⟩ := h
      change newLinesOf diff ni len ++ newLinesFrom diff ops = _ ↔ ∀ l ∈ keptSlices diff ops, _
      rw [append_eq_drop_iff (by simp [newLinesOf]; omega) hle, ih hrest]
      exact and_iff_right rfl

theorem ValidOps.length_newLinesFrom {diff} (h : ValidOps old diff.newSlices i j c ops) :
    j + (newLinesFrom diff ops).length = diff.newSlices.length := by
  induction ops generalizing i j c with
  | nil => exact h.2
  | cons op ops ih =>
    cases op with
    | equal oi ni len =>
      obtain ⟨rfl, rfl, -, -, hle, -, hrest⟩ := h
      have := ih hrest
      change ni + (List.map lineOf ((diff.newSlices.drop ni).take len) ++
        newLinesFrom diff ops).length = _
      simp only [length_append, length_map, length_take, length_drop]
      omega
    | delete oi len ni =>
      obtain ⟨-, rfl, rfl, -, -, hrest⟩ := h
      exact ih hrest
    | insert oi ni len =>
      obtain ⟨-, rfl, rfl, -, hle, hrest⟩ := h
      have := ih hrest
      change ni + (newLinesOf diff ni len ++ newLinesFrom diff ops).length = _
      simp only [newLinesOf, length_append, length_map, length_take, length_drop]
      omega
    | replace oi k ni len =>
      obtain ⟨-, rfl, rfl, -, -, -, hle, hrest⟩ := h
      have := ih hrest
      change ni + (newLinesOf diff ni len ++ newLinesFrom diff ops).length = _
      simp only [newLinesOf, length_append, length_map, length_take, length_drop]
      omega

theorem lineOf_eq_trim_iff (hd : '\n' ∉ slice.toList.dropLast) :
    lineOf slice = trimEndMatches '\n' slice ↔ ¬ ['\r', '\n'] <:+ slice.toList := by
  rw [lineOf, trimEndMatches, String.ofList_inj, ← unended]
  by_cases hl : slice.toList.getLast? = some '\n'
  · have hun := unended_of_newline hd hl
    have hdrop : slice.toList.dropLast = unended slice.toList := by
      rw [← hun, dropLast_concat, hun]
    have hsuffix : ['\r', '\n'] <:+ slice.toList ↔ (unended slice.toList).getLast? = some '\r' := by
      rw [← hun, hun, getLast?_eq_some_iff]
      constructor
      · rintro ⟨pre, hpre⟩
        refine ⟨pre, ?_⟩
        apply append_cancel_right
        rw [hun, ← hpre]
        simp
      · rintro ⟨pre, hpre⟩
        exact ⟨pre, by rw [← hun, hpre]; simp⟩
    rw [stripTerminator, stripLast, if_pos hl, hsuffix]
    dsimp only
    rw [stripLast, hdrop]
    split_ifs with hr
    · refine ⟨fun heq => ?_, fun h => (h hr).elim⟩
      rw [Option.getD_some] at heq
      have hlen := congrArg List.length heq
      obtain ⟨pre, hpre⟩ := getLast?_eq_some_iff.1 hr
      rw [hpre] at hlen
      simp at hlen
    · exact ⟨fun _ => hr, fun _ => rfl⟩
  · have hnot : ¬ ['\r', '\n'] <:+ slice.toList := by
      rintro ⟨pre, hpre⟩
      rw [← hpre] at hl
      simp at hl
    rw [stripTerminator, stripLast, if_neg hl, unended_of_open hl]
    exact ⟨fun _ => hnot, fun _ => rfl⟩

theorem LineDiff.validDiff {diff} (h : LineDiff old new diff) : ValidDiff old new diff := by
  refine ⟨?_, ?_, ?_, h.blocks⟩
  · rw [lines, ← h.oldSlices, map_map]
    rfl
  · rw [h.newSlices, flatten_splitInclusive]
  · intro l hl
    exact not_mem_dropLast_of_mem_splitInclusive _ _ (h.newSlices ▸ mem_map_of_mem hl)

theorem LineDiff.trimmed {diff} (h : LineDiff old new diff) :
    (diff.newSlices.map (trimEndMatches '\n')).map String.toList =
      (splitInclusive new.toList).map unended := by
  rw [← h.newSlices, map_map, map_map]
  apply map_congr_left
  intro slice _
  exact String.toList_ofList

theorem LineDiff.text_eq {diff} (h : LineDiff old new diff) :
    ['\n'].intercalate ((diff.newSlices.map (trimEndMatches '\n')).map String.toList) ++
      ending new.toList = new.toList := by
  have hpieces := @intercalate_unended (splitInclusive new.toList)
    (not_mem_dropLast_of_mem_splitInclusive _) (getLast?_of_mem_splitInclusive)
    (ne_nil_of_mem_splitInclusive)
  rwa [flatten_splitInclusive, ← h.trimmed] at hpieces

theorem toList_renderLines :
    (renderLines base ls).toList = ['\n'].intercalate (ls.map String.toList) ++ ending base.toList := by
  have hends : endsWith base '\n' = true ↔ base.toList.getLast? = some '\n' := beq_iff_eq
  rw [renderLines, ending, joinLines]
  by_cases hb : endsWith base '\n' = true
  · rw [if_pos hb, if_pos (hends.1 hb), String.toList_append, String.toList_ofList]
    rfl
  · rw [if_neg hb, if_neg fun h => hb (hends.2 h), String.toList_ofList, append_nil]

theorem intercalate_inj (hls : ∀ l ∈ ls, '\n' ∉ l) (hms : ∀ l ∈ ms, '\n' ∉ l) (hl : ls ≠ [])
    (hm : ms ≠ []) (h : ['\n'].intercalate ls = ['\n'].intercalate ms) : ls = ms := by
  rw [← splitOn_intercalate '\n' hls hl, h, splitOn_intercalate '\n' hms hm]

theorem intercalate_ending_iff {ls ms : List (List Char)} {cs ds : List Char}
    (hls : ∀ l ∈ ls, '\n' ∉ l) (hms : ∀ l ∈ ms, '\n' ∉ l) (hle : ls.length ≤ ms.length)
    (hne : ms ≠ [] → ls ≠ []) (hds : ['\n'].intercalate ms ++ ending ds = ds) :
    ['\n'].intercalate ls ++ ending cs = ds ↔ ending cs = ending ds ∧ ls = ms := by
  constructor
  · intro h
    by_cases hend : ending cs = ending ds
    · refine ⟨hend, ?_⟩
      rw [hend] at h
      have hjoin := append_cancel_right (h.trans hds.symm)
      by_cases hm : ms = []
      · rw [hm] at hle ⊢
        exact length_eq_zero_iff.1 (Nat.le_zero.1 hle)
      · exact intercalate_inj hls hms (hne hm) hm hjoin
    · exfalso
      by_cases hc : cs.getLast? = some '\n'
      · have hd : ds.getLast? = some '\n' := by
          rw [← h, ending, if_pos hc]
          simp
        exact hend (by rw [ending, ending, if_pos hc, if_pos hd])
      · have hd : ds.getLast? = some '\n' := by
          by_contra hd
          exact hend (by rw [ending, ending, if_neg hc, if_neg hd])
        rw [ending, if_neg hc, append_nil] at h
        rw [ending, if_pos hd] at hds
        have hm : ms ≠ [] := by
          rintro rfl
          have hl := length_eq_zero_iff.1 (Nat.le_zero.1 hle)
          rw [hl] at h
          rw [← h] at hd
          cases hd
        have hlonger : ['\n'].intercalate (ms ++ [[]]) = ['\n'].intercalate ms ++ ['\n'] := by
          obtain ⟨m, ms, rfl⟩ := exists_cons_of_ne_nil hm
          clear hds hms hne hle hm
          induction ms generalizing m with
          | nil => simp [intercalate_cons_cons]
          | cons m' ms ih =>
            rw [cons_append, cons_append, intercalate_cons_cons, ← cons_append, ih,
              intercalate_cons_cons]
            simp
        have heq : ls = ms ++ [[]] := by
          apply intercalate_inj hls _ (hne hm) (by simp)
          · rw [hlonger, h, hds]
          · intro l hl
            rcases mem_append.1 hl with hl | hl
            · exact hms l hl
            · rw [mem_singleton.1 hl]
              exact nofun
        rw [heq, length_append] at hle
        simp at hle
  · rintro ⟨hend, rfl⟩
    rw [hend, hds]

/-- What makes a merge with an unchanged side give the other side: no insertion before a line, no
unchanged line that ends in `\r\n`, and the same ending of both texts. -/
structure Restores (base text : String) (diff : TextDiff) : Prop where
  noInsert : ∀ e ∈ script diff, ¬ InnerInsert (lines base).length e
  noCrLf : ∀ l ∈ keptSlices diff diff.ops, ¬ ['\r', '\n'] <:+ l.toList
  sameEnding : endsWith base '\n' = endsWith text '\n'

theorem ending_eq_iff :
    ending base.toList = ending text.toList ↔ endsWith base '\n' = endsWith text '\n' := by
  have hends (s : String) : endsWith s '\n' = true ↔ s.toList.getLast? = some '\n' := beq_iff_eq
  rw [Bool.eq_iff_iff, hends, hends, ending, ending]
  split_ifs <;> simp_all

theorem mem_keptSlices {diff} (h : l ∈ keptSlices diff ops) : l ∈ diff.newSlices := by
  obtain ⟨op, -, hl⟩ := mem_flatMap.1 h
  cases op with
  | equal oi ni len => exact mem_of_mem_drop (mem_of_mem_take hl)
  | delete oi len ni => cases hl
  | insert oi ni len => cases hl
  | replace oi k ni len => cases hl

theorem LineDiff.renderLines_walk_iff (h : LineDiff base text diff) :
    renderLines base (walk (lines base) (script diff) []) = text ↔ Restores base text diff := by
  have hv := h.validDiff
  have hs := hv.separated
  have hnone : Separated (lines base).length ([] : List (Edit String)) :=
    ⟨List.Pairwise.nil, nofun, nofun⟩
  have hdisjoint : Disjoint (script diff) [] := fun e _ f hf => by cases hf
  have hbase : diff.oldSlices.map lineOf = lines base := hv.oldLines
  have hcompose : compose (lines base) (script diff) [] = newLinesFrom diff diff.ops := by
    rw [compose_nil hs, ← hbase]
    exact h.blocks.applyFrom_eq
  have hlength := h.blocks.length_newLinesFrom
  rw [Nat.zero_add, ← hcompose] at hlength
  have hnl : ∀ l ∈ walk (lines base) (script diff) [], '\n' ∉ l.toList := by
    intro l hl
    rcases mem_walk hl with hb | ⟨f, hf, hp⟩
    · exact not_mem_of_mem_lines hb
    · rw [append_nil] at hf
      exact hv.not_mem_put hf hp
  have hshort : (walk (lines base) (script diff) []).length ≤ diff.newSlices.length ∧
      (diff.newSlices ≠ [] → walk (lines base) (script diff) [] ≠ []) := by
    by_cases hins : ∀ e ∈ script diff, ¬ InnerInsert (lines base).length e
    · rw [walk_eq_compose (by rwa [append_nil]), hlength]
      refine ⟨le_refl _, fun hne hnil => ?_⟩
      rw [hnil] at hlength
      exact hne (length_eq_zero_iff.1 hlength.symm)
    · push Not at hins
      obtain ⟨e, he, hi⟩ := hins
      have hmem : e ∈ script diff ++ [] := mem_append_left _ he
      exact ⟨hlength ▸ (walk_length_lt hs hnone hdisjoint hmem hi).le,
        fun _ => walk_ne_nil hs hnone hdisjoint hmem hi⟩
  have hslices : ∀ l ∈ diff.newSlices, '\n' ∉ l.toList.dropLast := hv.newLines
  have hrender := (@intercalate_ending_iff _ _ base.toList) (by
      intro l hl
      obtain ⟨line, hline, rfl⟩ := mem_map.1 hl
      exact hnl line hline)
    (by
      intro l hl
      obtain ⟨line, hline, rfl⟩ := mem_map.1 hl
      obtain ⟨slice, hslice, rfl⟩ := mem_map.1 hline
      exact not_mem_trimEndMatches (hslices slice hslice))
    (by simpa using hshort.1) (by simpa using hshort.2) h.text_eq
  rw [← toList_renderLines, String.toList_inj, ending_eq_iff,
    List.map_inj_right fun a b => String.toList_inj.1] at hrender
  rw [hrender]
  have hkept : (∀ l ∈ keptSlices diff diff.ops, lineOf l = trimEndMatches '\n' l) ↔
      ∀ l ∈ keptSlices diff diff.ops, ¬ ['\r', '\n'] <:+ l.toList :=
    forall₂_congr fun l hl => lineOf_eq_trim_iff (hslices l (mem_keptSlices hl))
  have hlines := h.blocks.newLinesFrom_eq_iff
  rw [drop_zero, hkept, ← hcompose] at hlines
  constructor
  · rintro ⟨hend, hwalk⟩
    have hins : ∀ e ∈ script diff, ¬ InnerInsert (lines base).length e := by
      intro e he hi
      have hlt := walk_length_lt hs hnone hdisjoint (mem_append_left _ he) hi
      rw [hwalk, length_map, hlength] at hlt
      exact lt_irrefl _ hlt
    rw [walk_eq_compose (by rwa [append_nil])] at hwalk
    exact ⟨hins, hlines.1 hwalk, hend⟩
  · rintro ⟨hins, hcr, hend⟩
    refine ⟨hend, ?_⟩
    rw [walk_eq_compose (by rwa [append_nil])]
    exact hlines.2 hcr

theorem overlaps_comm (a b : ChangeRange) : a.overlaps b = b.overlaps a := by
  rw [ChangeRange.overlaps, ChangeRange.overlaps, Bool.and_comm]

theorem rangesOverlap_comm : rangesOverlap a b = rangesOverlap b a := by
  rw [Bool.eq_iff_iff]
  simp only [rangesOverlap, any_eq_true]
  constructor
  · rintro ⟨ra, ha, rb, hb, h⟩
    exact ⟨rb, hb, ra, ha, overlaps_comm ra rb ▸ h⟩
  · rintro ⟨ra, ha, rb, hb, h⟩
    exact ⟨rb, hb, ra, ha, overlaps_comm ra rb ▸ h⟩

theorem mergeLoop_comm : mergeLoop baseLines localOps remoteOps fuel i result =
      mergeLoop baseLines remoteOps localOps fuel i result := by
  induction fuel generalizing i result with
  | zero => rfl
  | succ fuel ih =>
    rw [mergeLoop, mergeLoop]
    cases baseLines[i]? with
    | none => rfl
    | some line => cases localOps i <;> cases remoteOps i <;> simp only [ih]

theorem mem_collectChangedRanges_of_collectOps {diff} (h : collectOps diff i = some op) :
    ∃ range ∈ collectChangedRanges diff, range.start = i := by
  by_contra hno
  push Not at hno
  have hnone : collectOps diff i = none := by
    apply collectOps_eq_none
    intro e he hpos
    exact hno ⟨e.pos, e.pos + e.removed⟩
      (collectChangedRanges_eq diff ▸ mem_map_of_mem (f := fun e : Edit String =>
        (⟨e.pos, e.pos + e.removed⟩ : ChangeRange)) he) hpos
  rw [hnone] at h
  cases h

theorem collectOps_of_rangesOverlap
    (h : rangesOverlap (collectChangedRanges dl) (collectChangedRanges dr) = false) (i : Nat) :
    collectOps dl i = none ∨ collectOps dr i = none := by
  cases hl : collectOps dl i with
  | none => exact .inl rfl
  | some opl =>
    cases hr : collectOps dr i with
    | none => exact .inr rfl
    | some opr =>
      obtain ⟨ra, ha, hai⟩ := mem_collectChangedRanges_of_collectOps hl
      obtain ⟨rb, hb, hbi⟩ := mem_collectChangedRanges_of_collectOps hr
      have hover : ra.overlaps rb = true := by
        have hra : ra.start ≤ ra.stop := by
          rw [collectChangedRanges_eq] at ha
          obtain ⟨e, -, rfl⟩ := mem_map.1 ha
          exact Nat.le_add_right _ _
        have hrb : rb.start ≤ rb.stop := by
          rw [collectChangedRanges_eq] at hb
          obtain ⟨e, -, rfl⟩ := mem_map.1 hb
          exact Nat.le_add_right _ _
        simp only [ChangeRange.overlaps, Bool.and_eq_true, decide_eq_true_eq]
        split_ifs <;> omega
      have hany : rangesOverlap (collectChangedRanges dl) (collectChangedRanges dr) = true :=
        any_eq_true.2 ⟨ra, ha, any_eq_true.2 ⟨rb, hb, hover⟩⟩
      rw [h] at hany
      cases hany

theorem mergedLines_comm
    (h : rangesOverlap (collectChangedRanges dl) (collectChangedRanges dr) = false) :
    mergedLines baseLines (collectOps dl) (collectOps dr) =
      mergedLines baseLines (collectOps dr) (collectOps dl) := by
  rw [mergedLines, mergedLines, mergeLoop_comm]
  congr 1
  funext result
  rcases collectOps_of_rangesOverlap h baseLines.length with hl | hr
  · rw [trailing, hl, Option.elim_none, append_nil, append_nil]
  · rw [trailing.eq_def (collectOps dr), hr, Option.elim_none, append_nil, append_nil]

theorem threeWayTextMerge_comm (fromLines : String → String → TextDiff) (base loc remote : Bytes) :
    threeWayTextMerge fromLines base loc remote = threeWayTextMerge fromLines base remote loc := by
  rw [threeWayTextMerge, threeWayTextMerge, rangesOverlap_comm]
  by_cases hover : rangesOverlap
      (collectChangedRanges (fromLines (fromUtf8Lossy base) (fromUtf8Lossy remote)))
      (collectChangedRanges (fromLines (fromUtf8Lossy base) (fromUtf8Lossy loc))) = true
  · rw [if_pos hover, if_pos hover]
  · rw [if_neg hover, if_neg hover, applyNonOverlappingChanges, applyNonOverlappingChanges,
      mergedLines_comm (Bool.eq_false_iff.2 hover)]

theorem script_nil_overlap {diff ranges} (h : script diff = []) :
    rangesOverlap ranges (collectChangedRanges diff) = false := by
  rw [collectChangedRanges_eq, h, Bool.eq_false_iff]
  intro hany
  obtain ⟨_, _, hb⟩ := any_eq_true.1 hany
  cases hb

theorem threeWayTextMerge_base (h : Differ fromLines) (hb : loneCrFree base.toList)
    (ht : loneCrFree text.toList) :
    threeWayTextMerge fromLines (asBytes base) (asBytes text) (asBytes base) =
        .merged (asBytes text) ↔
      Restores base text (fromLines base text) := by
  have hdiff := h.lineDiff base text hb ht
  have hsame := h.unchanged base hb
  rw [threeWayTextMerge_eq fromLines (fromUtf8Lossy_asBytes _) (fromUtf8Lossy_asBytes _)
    (fromUtf8Lossy_asBytes _) hdiff.validDiff (h.lineDiff base base hb hb).validDiff,
    script_nil_overlap hsame, if_neg Bool.false_ne_true, hsame, TextMergeResult.merged.injEq,
    asBytes_inj]
  exact hdiff.renderLines_walk_iff

def wholeDiff (old new : String) : TextDiff :=
  let oldSlices := (splitInclusive old.toList).map String.ofList
  let newSlices := (splitInclusive new.toList).map String.ofList
  ⟨oldSlices, newSlices,
    if oldSlices = newSlices then
      if oldSlices = [] then [] else [.equal 0 0 oldSlices.length]
    else if oldSlices = [] then [.insert 0 0 newSlices.length]
    else if newSlices = [] then [.delete 0 oldSlices.length 0]
    else [.replace 0 oldSlices.length 0 newSlices.length]⟩

theorem wholeDiff_differ : Differ wholeDiff := by
  constructor
  · intro old new _ _
    have hslices (s : String) :
        ((splitInclusive s.toList).map String.ofList).map String.toList = splitInclusive s.toList := by
      simp [Function.comp_def]
    refine ⟨hslices old, hslices new, ?_⟩
    dsimp only [wholeDiff]
    generalize (splitInclusive old.toList).map String.ofList = a
    generalize (splitInclusive new.toList).map String.ofList = b
    have hpos {l : List String} (hl : l ≠ []) : 0 < l.length := length_pos_iff.2 hl
    split_ifs with hab ha ha hb
    · subst hab ha
      exact ⟨rfl, rfl⟩
    · subst hab
      exact ⟨rfl, rfl, hpos ha, by omega, by omega, rfl, by omega, by omega⟩
    · subst ha
      exact ⟨rfl, rfl, rfl, hpos (Ne.symm hab), by omega, rfl, by omega⟩
    · subst hb
      exact ⟨rfl, rfl, rfl, hpos ha, by omega, by omega, rfl⟩
    · exact ⟨rfl, rfl, rfl, hpos ha, hpos hb, by omega, by omega, by omega, by omega⟩
  · intro text _
    rw [script, wholeDiff]
    dsimp only
    rw [if_pos rfl]
    split_ifs <;> rfl

end Obsetync
