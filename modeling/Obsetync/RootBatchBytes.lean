import Mathlib

/-! How many bytes a path takes in the metadata of a batch. -/

namespace Obsetync.RootBatch
open List

/-- The UTF-16 code units of a JavaScript string, which need not be well formed. -/
abbrev JsString := List UInt16

abbrev IsHigh (unit : Nat) : Prop := 0xd800 ≤ unit ∧ unit ≤ 0xdbff

abbrev IsLow (unit : Nat) : Prop := 0xdc00 ≤ unit ∧ unit ≤ 0xdfff

/-- `StringToCodePoints`: a surrogate without its partner stands for itself. -/
def codePoints : JsString → List Nat
  | [] => []
  | [unit] => [unit.toNat]
  | unit :: next :: rest =>
    if IsHigh unit.toNat ∧ IsLow next.toNat then
      (0x10000 + (unit.toNat - 0xd800) * 0x400 + (next.toNat - 0xdc00)) :: codePoints rest
    else unit.toNat :: codePoints (next :: rest)

/-- `UTF16EncodeCodePoint`. -/
def utf16 (point : Nat) : JsString :=
  if point < 0x10000 then [UInt16.ofNat point]
  else [UInt16.ofNat (0xd800 + (point - 0x10000) / 0x400),
    UInt16.ofNat (0xdc00 + (point - 0x10000) % 0x400)]

def hexUnit (digit : Nat) : UInt16 := UInt16.ofNat (if digit < 10 then 48 + digit else 87 + digit)

/-- `QuoteJSONString` of one code point. -/
def quote (point : Nat) : JsString :=
  if point = 8 then [92, 98]
  else if point = 9 then [92, 116]
  else if point = 10 then [92, 110]
  else if point = 12 then [92, 102]
  else if point = 13 then [92, 114]
  else if point = 34 then [92, 34]
  else if point = 92 then [92, 92]
  else if point < 0x20 ∨ IsHigh point ∨ IsLow point then
    [92, 117, hexUnit (point / 0x1000), hexUnit (point / 0x100 % 0x10),
      hexUnit (point / 0x10 % 0x10), hexUnit (point % 0x10)]
  else utf16 point

def jsonStringify (value : JsString) : JsString := 34 :: (codePoints value).flatMap quote ++ [34]

/-- A surrogate without its partner is encoded as U+FFFD. -/
def utf8Size (point : Nat) : Nat :=
  (if IsHigh point ∨ IsLow point then Char.ofNat 0xfffd else Char.ofNat point).utf8Size

def utf8Length (value : JsString) : Nat := ((codePoints value).map utf8Size).sum

abbrev IsShort (code : Nat) : Prop :=
  code = 34 ∨ code = 92 ∨ code = 8 ∨ code = 9 ∨ code = 10 ∨ code = 12 ∨ code = 13

/-- The bytes of the next code point, and the units that it takes. -/
def pathUnitBytes (code : Nat) (next : Option UInt16) : Nat × Nat :=
  if IsShort code then (2, 1)
  else if code < 32 then (6, 1)
  else if code < 128 then (1, 1)
  else if code < 2048 then (2, 1)
  else if IsHigh code ∧ ∃ unit ∈ next, IsLow unit.toNat then (4, 2)
  else if 0xd800 ≤ code ∧ code ≤ 0xdfff then (6, 1)
  else (3, 1)

/-- One resumption of the generator: it pauses in front of the rest, or returns. -/
def scan : Nat → JsString → Nat → Nat → JsString × Nat ⊕ Nat
  | 0, _, bytes, _ => .inr bytes
  | _, [], bytes, _ => .inr bytes
  | fuel + 1, unit :: rest, bytes, scanned =>
    let (size, units) := pathUnitBytes unit.toNat rest.head?
    let left := (unit :: rest).drop units
    if 4096 ≤ scanned + units then .inl (left, bytes + size)
    else scan fuel left (bytes + size) (scanned + units)

def resume : Nat → JsString → Nat → Option Nat
  | 0, _, _ => none
  | fuel + 1, value, bytes =>
    match scan value.length value bytes 0 with
    | .inl (left, bytes) => resume fuel left bytes
    | .inr bytes => some bytes

def rootBatchPathBytesSteps (value : JsString) : Option Nat := resume (value.length + 1) value 2

/-- The metadata of the queued nodes of a component, each with its path and whether it is a cut. -/
def componentBytes : List (JsString × Bool) → Option Nat
  | [] => some 0
  | (path, cut) :: nodes => do
    let value ← rootBatchPathBytesSteps path
    let bytes ← componentBytes nodes
    pure (320 + value + (if cut then 96 + value else 0) + bytes)

def quotedSize (point : Nat) : Nat :=
  if IsShort point then 2
  else if point < 32 ∨ IsHigh point ∨ IsLow point then 6
  else if point < 128 then 1
  else if point < 2048 then 2
  else if point < 0x10000 then 3
  else 4

def total (value : JsString) : Nat := ((codePoints value).map quotedSize).sum

theorem codePoints_lt (value : JsString) : ∀ point ∈ codePoints value, point < 0x110000 := by
  induction value using codePoints.induct with
  | case1 => simp [codePoints]
  | case2 unit =>
    have := unit.toNat_lt
    simp only [codePoints, mem_singleton, forall_eq]
    omega
  | case3 unit next rest h ih =>
    simp only [codePoints, if_pos h, forall_mem_cons]
    exact ⟨by omega, ih⟩
  | case4 unit next rest h ih =>
    have := unit.toNat_lt
    simp only [codePoints, if_neg h, forall_mem_cons]
    exact ⟨by omega, ih⟩

theorem total_cons (unit : UInt16) (rest : JsString) :
    total (unit :: rest) = (pathUnitBytes unit.toNat rest.head?).1 +
      total ((unit :: rest).drop (pathUnitBytes unit.toNat rest.head?).2) := by
  have hlt := unit.toNat_lt
  by_cases hpair : IsHigh unit.toNat ∧ ∃ unit ∈ rest.head?, IsLow unit.toNat
  · obtain ⟨hhigh, next, hnext, hlow⟩ := hpair
    obtain ⟨rest', rfl⟩ := head?_eq_some_iff.1 hnext
    have hbytes : pathUnitBytes unit.toNat (next :: rest').head? = (4, 2) := by
      rw [pathUnitBytes, if_neg (by omega), if_neg (by omega), if_neg (by omega), if_neg (by omega)]
      exact if_pos ⟨hhigh, next, rfl, hlow⟩
    rw [hbytes, total, codePoints, if_pos ⟨hhigh, hlow⟩, map_cons, sum_cons, quotedSize]
    repeat rw [if_neg (by omega)]
    rfl
  · have hpoints : codePoints (unit :: rest) = unit.toNat :: codePoints rest := by
      cases rest with
      | nil => rfl
      | cons next rest => exact if_neg fun h => hpair ⟨h.1, next, rfl, h.2⟩
    have hbytes : pathUnitBytes unit.toNat rest.head? = (quotedSize unit.toNat, 1) := by
      rw [pathUnitBytes, if_neg hpair, quotedSize]
      split_ifs <;> first | rfl | omega
    rw [total, hpoints, hbytes, map_cons, sum_cons, drop_one, tail_cons, total]

def Scanned (value : JsString) (bytes : Nat) : JsString × Nat ⊕ Nat → Prop
  | .inl (left, bytes') => bytes' + total left = bytes + total value ∧ left.length < value.length
  | .inr bytes' => bytes' = bytes + total value

theorem scan_spec (value : JsString) (bytes scanned : Nat) (hfuel : value.length ≤ fuel) :
    Scanned value bytes (scan fuel value bytes scanned) := by
  induction fuel generalizing value bytes scanned with
  | zero =>
    rw [length_eq_zero_iff.1 (Nat.le_zero.1 hfuel)]
    rfl
  | succ fuel ih =>
    cases value with
    | nil => rfl
    | cons unit rest =>
      have hpos : 0 < (pathUnitBytes unit.toNat rest.head?).2 := by
        unfold pathUnitBytes
        split_ifs <;> decide
      have htotal := total_cons unit rest
      rw [scan]
      generalize pathUnitBytes unit.toNat rest.head? = next at hpos htotal
      have hlength : ((unit :: rest).drop next.2).length < (unit :: rest).length := by
        rw [length_drop, length_cons]
        omega
      dsimp only
      generalize (unit :: rest).drop next.2 = left at htotal hlength
      split
      · exact ⟨by omega, hlength⟩
      · have hleft := ih left (bytes + next.1) (scanned + next.2) (by omega)
        generalize scan fuel left (bytes + next.1) (scanned + next.2) = out at hleft
        cases out with
        | inl paused => exact ⟨hleft.1.trans (by omega), hleft.2.trans hlength⟩
        | inr bytes' => exact hleft.trans (by omega)

theorem resume_eq (value : JsString) (bytes : Nat) (hfuel : value.length < fuel) :
    resume fuel value bytes = some (bytes + total value) := by
  induction fuel generalizing value bytes with
  | zero => cases hfuel
  | succ fuel ih =>
    have hscan := scan_spec value bytes 0 le_rfl
    rw [resume]
    generalize scan value.length value bytes 0 = out at hscan
    cases out with
    | inl paused =>
      have hleft : paused.1.length < value.length := hscan.2
      exact (ih paused.1 paused.2 (by omega)).trans (congrArg some hscan.1)
    | inr bytes' => exact congrArg some hscan

theorem utf8Size_eq (h : point < 0x110000) (hhigh : ¬ IsHigh point) (hlow : ¬ IsLow point) :
    utf8Size point =
      if point < 128 then 1 else if point < 2048 then 2 else if point < 0x10000 then 3 else 4 := by
  have hvalid : point.isValidChar := by
    unfold Nat.isValidChar
    omega
  have hval : (Char.ofNat point).val.toNat = point := by
    rw [Char.ofNat, dif_pos hvalid]
    rfl
  rw [utf8Size, if_neg (not_or.2 ⟨hhigh, hlow⟩), Char.utf8Size]
  simp only [UInt32.le_iff_toNat_le, hval, UInt32.toNat_ofNatLT, Nat.lt_succ_iff]

theorem utf8Length_cons (h : ¬ IsHigh unit.toNat) (rest : JsString) :
    utf8Length (unit :: rest) = utf8Size unit.toNat + utf8Length rest := by
  cases rest with
  | nil => rfl
  | cons next rest =>
    rw [utf8Length, codePoints, if_neg (fun hpair => h hpair.1), map_cons, sum_cons, utf8Length]

theorem utf8Length_ascii (h : ∀ unit ∈ units, unit.toNat < 128) (rest : JsString) :
    utf8Length (units ++ rest) = units.length + utf8Length rest := by
  induction units with
  | nil => rw [nil_append, length_nil, Nat.zero_add]
  | cons unit units ih =>
    rw [forall_mem_cons] at h
    rw [cons_append, utf8Length_cons (by omega), ih h.2,
      utf8Size_eq (by omega) (by omega) (by omega), if_pos h.1, length_cons]
    omega

theorem utf8Length_utf16 (h : point < 0x110000) (hhigh : ¬ IsHigh point) (rest : JsString) :
    utf8Length (utf16 point ++ rest) = utf8Size point + utf8Length rest := by
  unfold utf16
  split
  · next hone =>
    have hunit : (UInt16.ofNat point).toNat = point := UInt16.toNat_ofNat_of_lt' hone
    rw [singleton_append, utf8Length_cons (hunit.symm ▸ hhigh), hunit]
  · have hunit {n : Nat} (hn : n < 65536) : (UInt16.ofNat n).toNat = n :=
      UInt16.toNat_ofNat_of_lt' hn
    have hpoint : 0x10000 + (0xd800 + (point - 0x10000) / 0x400 - 0xd800) * 0x400 +
        (0xdc00 + (point - 0x10000) % 0x400 - 0xdc00) = point := by omega
    rw [cons_append, singleton_append, utf8Length, codePoints, hunit (by omega),
      hunit (by omega), if_pos (by omega), hpoint, map_cons, sum_cons, utf8Length]

theorem hexUnit_lt (h : digit < 16) : (hexUnit digit).toNat < 128 := by
  revert digit
  decide

theorem utf8Length_quote (h : point < 0x110000) (rest : JsString) :
    utf8Length (quote point ++ rest) = quotedSize point + utf8Length rest := by
  by_cases hshort : IsShort point
  · have hquote : (quote point).length = 2 ∧ ∀ unit ∈ quote point, unit.toNat < 128 := by
      obtain rfl | rfl | rfl | rfl | rfl | rfl | rfl := hshort <;> simp [quote]
    rw [utf8Length_ascii hquote.2, hquote.1, quotedSize, if_pos hshort]
  rw [quotedSize, if_neg hshort]
  unfold quote
  repeat rw [if_neg (by omega)]
  split_ifs with hescaped
  · rw [utf8Length_ascii]
    · rfl
    · simp only [forall_mem_cons]
      exact ⟨by decide, by decide, hexUnit_lt (by omega), hexUnit_lt (by omega),
        hexUnit_lt (by omega), hexUnit_lt (by omega), nofun⟩
  all_goals
    rw [utf8Length_utf16 h (by omega), utf8Size_eq h (by omega) (by omega)]
    simp only [*, if_true, if_false]

theorem utf8Length_jsonStringify (value : JsString) :
    utf8Length (jsonStringify value) = 2 + total value := by
  have hquoted : ∀ points : List Nat, (∀ point ∈ points, point < 0x110000) →
      utf8Length (points.flatMap quote ++ [34]) = (points.map quotedSize).sum + 1 := by
    intro points hpoints
    induction points with
    | nil => rfl
    | cons point points ih =>
      rw [forall_mem_cons] at hpoints
      rw [flatMap_cons, append_assoc, utf8Length_quote hpoints.1, ih hpoints.2,
        map_cons, sum_cons, Nat.add_assoc]
  rw [jsonStringify, cons_append, utf8Length_cons (by decide),
    hquoted _ (codePoints_lt value), total]
  have hquote : utf8Size (UInt16.toNat 34) = 1 := by decide
  omega

/-- The generator counts the bytes of the path as JSON, and so does the estimate. -/
theorem rootBatchPathBytesSteps_eq :
    (∀ value, rootBatchPathBytesSteps value = some (utf8Length (jsonStringify value))) ∧
    ∀ nodes, componentBytes nodes = some (nodes.map fun (path, cut) =>
      320 + utf8Length (jsonStringify path) +
        (if cut then 96 + utf8Length (jsonStringify path) else 0)).sum := by
  have hpath : ∀ value,
      rootBatchPathBytesSteps value = some (utf8Length (jsonStringify value)) := by
    intro value
    rw [utf8Length_jsonStringify]
    exact resume_eq value 2 (Nat.lt_succ_self _)
  refine ⟨hpath, fun nodes => ?_⟩
  induction nodes with
  | nil => rfl
  | cons node nodes ih =>
    rw [componentBytes, hpath, ih]
    rfl

end Obsetync.RootBatch
