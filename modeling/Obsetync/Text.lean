import Mathlib

namespace Obsetync
open List

/-- Byte buffers of the source (`Vec<u8>` and `&[u8]`). -/
abbrev Bytes := List UInt8

/-- `str::as_bytes`. -/
def asBytes (s : String) : Bytes := s.toByteArray.data.toList

/-- `std::str::from_utf8`. -/
def fromUtf8 (bytes : Bytes) : Option String := String.fromUTF8? ⟨bytes.toArray⟩

theorem asBytes_length (s : String) : (asBytes s).length = s.utf8ByteSize := by
  rw [asBytes, Array.length_toList]
  rfl

theorem asBytes_inj : asBytes s = asBytes t ↔ s = t := by
  constructor
  · intro h
    apply String.toByteArray_inj.1
    apply ByteArray.ext
    exact Array.toList_inj.1 h
  · intro h
    rw [h]

theorem fromUtf8_asBytes (s : String) : fromUtf8 (asBytes s) = some s := by
  have hb : (⟨(asBytes s).toArray⟩ : ByteArray) = s.toByteArray := by
    simp [asBytes]
  rw [fromUtf8, hb, String.fromUTF8?, dif_pos s.isValidUTF8]
  rfl

theorem asBytes_fromUtf8 (h : fromUtf8 bytes = some s) : asBytes s = bytes := by
  rw [fromUtf8, String.fromUTF8?] at h
  split_ifs at h with hvalid
  obtain rfl := Option.some.inj h
  rfl

theorem asBytes_ofList (cs : List Char) :
    asBytes (String.ofList cs) = cs.flatMap String.utf8EncodeChar := by
  rw [asBytes, String.toByteArray_ofList, List.utf8Encode]
  simp

def isContinuation (b : UInt8) : Bool := b &&& 0xC0 == 0x80

/-- The second bytes that may follow a three-byte or a four-byte lead. -/
def validSecond (lead second : UInt8) : Bool :=
  if lead == 0xE0 then 0xA0 ≤ second && second ≤ 0xBF
  else if lead == 0xED then 0x80 ≤ second && second ≤ 0x9F
  else if lead == 0xF0 then 0x90 ≤ second && second ≤ 0xBF
  else if lead == 0xF4 then 0x80 ≤ second && second ≤ 0x8F
  else 0x80 ≤ second && second ≤ 0xBF

def lowBits (b : UInt8) : Nat := b.toNat % 64

/-- One character of the lossy decoder and the number of bytes it takes after `lead`: a maximal
invalid sequence becomes one U+FFFD. -/
def lossyStep (lead : UInt8) (rest : Bytes) : Char × Nat :=
  let b1 := rest.getD 0 0
  let b2 := rest.getD 1 0
  let b3 := rest.getD 2 0
  if lead < 0x80 then (Char.ofNat lead.toNat, 0)
  else if 0xC2 ≤ lead && lead ≤ 0xDF then
    if !isContinuation b1 then ('�', 0)
    else (Char.ofNat (lead.toNat % 32 * 64 + lowBits b1), 1)
  else if 0xE0 ≤ lead && lead ≤ 0xEF then
    if !validSecond lead b1 then ('�', 0)
    else if !isContinuation b2 then ('�', 1)
    else (Char.ofNat (lead.toNat % 16 * 4096 + lowBits b1 * 64 + lowBits b2), 2)
  else if 0xF0 ≤ lead && lead ≤ 0xF4 then
    if !validSecond lead b1 then ('�', 0)
    else if !isContinuation b2 then ('�', 1)
    else if !isContinuation b3 then ('�', 2)
    else
      (Char.ofNat (lead.toNat % 8 * 262144 + lowBits b1 * 4096 + lowBits b2 * 64 + lowBits b3), 3)
  else ('�', 0)

def lossyChars : Nat → Bytes → List Char
  | 0, _ => []
  | _, [] => []
  | n + 1, lead :: rest =>
    (lossyStep lead rest).1 :: lossyChars n (rest.drop (lossyStep lead rest).2)

/-- `String::from_utf8_lossy`. -/
def fromUtf8Lossy (bytes : Bytes) : String := String.ofList (lossyChars bytes.length bytes)

/-- `str::split_inclusive('\n')` on characters. -/
def splitInclusive : List Char → List (List Char)
  | [] => []
  | c :: cs =>
    if c = '\n' then [c] :: splitInclusive cs
    else
      match splitInclusive cs with
      | [] => [[c]]
      | l :: ls => (c :: l) :: ls

def stripLast (c : Char) (l : List Char) : Option (List Char) :=
  if l.getLast? = some c then some l.dropLast else none

def stripTerminator (l : List Char) : List Char :=
  match stripLast '\n' l with
  | none => l
  | some l' => (stripLast '\r' l').getD l'

def lines (s : String) : List String :=
  (splitInclusive s.toList).map fun l => String.ofList (stripTerminator l)

def trimEndMatches (c : Char) (s : String) : String :=
  String.ofList (s.toList.rdropWhile (· == c))

def endsWith (s : String) (c : Char) : Bool := s.toList.getLast? == some c

/-- `[&str]::join("\n")`. -/
def joinLines (ls : List String) : String :=
  String.ofList (['\n'].intercalate (ls.map String.toList))

theorem not_mem_dropLast_of_mem_splitInclusive (cs : List Char) :
    ∀ l ∈ splitInclusive cs, '\n' ∉ l.dropLast := by
  induction cs with
  | nil => simp [splitInclusive]
  | cons c cs ih =>
    intro l hl
    rw [splitInclusive] at hl
    split_ifs at hl with hc
    · rcases mem_cons.1 hl with rfl | hl
      · simp
      · exact ih l hl
    · split at hl
      · simp_all
      · next l' ls heq =>
        rcases mem_cons.1 hl with rfl | hl
        · have := ih l' (heq ▸ mem_cons_self)
          cases l' with
          | nil => simp
          | cons d l' =>
            rw [dropLast_cons_of_ne_nil (cons_ne_nil _ _)]
            simpa [Ne.symm hc] using this
        · exact ih l (heq ▸ mem_cons_of_mem _ hl)

theorem not_mem_of_getLast? {l : List Char} (hd : '\n' ∉ l.dropLast)
    (hl : l.getLast? ≠ some '\n') : '\n' ∉ l := by
  intro hm
  have hne := ne_nil_of_mem hm
  rw [← dropLast_concat_getLast hne] at hm
  rcases mem_append.1 hm with hm | hm
  · exact hd hm
  · rw [getLast?_eq_some_getLast hne] at hl
    exact hl (congrArg some (mem_singleton.1 hm).symm)

theorem not_mem_stripTerminator {l : List Char} (hd : '\n' ∉ l.dropLast) :
    '\n' ∉ stripTerminator l := by
  rw [stripTerminator, stripLast]
  split_ifs with hl
  · dsimp only
    rw [stripLast]
    split_ifs
    · exact fun hm => hd (mem_of_mem_dropLast hm)
    · exact hd
  · exact not_mem_of_getLast? hd hl

theorem not_mem_of_mem_lines (hl : l ∈ lines s) : '\n' ∉ l.toList := by
  obtain ⟨cs, hcs, rfl⟩ := mem_map.1 hl
  rw [String.toList_ofList]
  exact not_mem_stripTerminator (not_mem_dropLast_of_mem_splitInclusive _ cs hcs)

theorem not_mem_trimEndMatches {s : String} (hd : '\n' ∉ s.toList.dropLast) :
    '\n' ∉ (trimEndMatches '\n' s).toList := by
  rw [trimEndMatches, String.toList_ofList]
  by_cases hl : s.toList.getLast? = some '\n'
  · obtain ⟨cs, hcs⟩ := getLast?_eq_some_iff.1 hl
    rw [hcs, dropLast_concat] at hd
    rw [hcs, rdropWhile_concat_pos _ _ _ (by simp)]
    exact fun hm => hd ((List.rdropWhile_prefix _ _).subset hm)
  · exact fun hm => not_mem_of_getLast? hd hl ((List.rdropWhile_prefix _ _).subset hm)

theorem count_joinLines (ls : List String) (h : ∀ l ∈ ls, '\n' ∉ l.toList) :
    (joinLines ls).toList.count '\n' = ls.length - 1 := by
  rw [joinLines, String.toList_ofList]
  induction ls with
  | nil => rfl
  | cons l ls ih =>
    have hl : l.toList.count '\n' = 0 := count_eq_zero.2 (h l mem_cons_self)
    cases ls with
    | nil => simpa using hl
    | cons m ls =>
      have := ih fun x hx => h x (mem_cons_of_mem _ hx)
      rw [map_cons, map_cons, intercalate_cons_cons, count_append,
        count_append, ← map_cons, this, hl]
      simp [Nat.add_comm]

end Obsetync
