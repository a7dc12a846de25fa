import Obsetync.SyncRules
import Obsetync.Utf8

namespace Obsetync

open Wildcard List

def charToken (c : Char) : Token Char :=
  if c = '*' then .star else if c = '?' then .one else .lit c

def InLanguage (pattern text : String) : Prop :=
  Matches (pattern.toList.map charToken) text.toList

theorem byteToken_encode_star : (String.utf8EncodeChar '*').map byteToken = [.star] := by decide

theorem byteToken_encode_one : (String.utf8EncodeChar '?').map byteToken = [.one] := by decide

theorem byteToken_encode_lit (hstar : c ≠ '*') (hone : c ≠ '?') :
    (String.utf8EncodeChar c).map byteToken = (String.utf8EncodeChar c).map .lit := by
  obtain ⟨lead, rest, henc, -, htrail, hascii, hwide⟩ := utf8EncodeChar_shape c
  have hlit : ∀ b : UInt8, b.toNat ≠ 42 → b.toNat ≠ 63 → byteToken b = .lit b := by
    intro b h42 h63
    rw [byteToken, if_neg fun h => h42 (congrArg UInt8.toNat h), if_neg fun h => h63 (congrArg UInt8.toNat h)]
  rw [henc]
  apply map_congr_left
  intro b hb
  rcases mem_cons.1 hb with rfl | hb
  · by_cases hc : c.toNat < 128
    · obtain ⟨-, hlead⟩ := hascii hc
      rw [hlit b] <;> rw [hlead]
      · exact fun h => hstar (eq_of_toNat_eq h)
      · exact fun h => hone (eq_of_toNat_eq h)
    · have := (hwide (not_lt.1 hc)).1
      exact hlit b (by omega) (by omega)
  · obtain ⟨hlow, -⟩ := htrail b hb
    exact hlit b (by omega) (by omega)

theorem charToken_lit (hstar : c ≠ '*') (hone : c ≠ '?') : charToken c = .lit c := by
  rw [charToken, if_neg hstar, if_neg hone]

theorem encode_suffix {t : List Char} (h : t.flatMap String.utf8EncodeChar = u ++ v) :
    (∃ t₁ t₂, t = t₁ ++ t₂ ∧ v = t₂.flatMap String.utf8EncodeChar) ∨ ∃ b v', v = b :: v' ∧ Trails b := by
  induction t generalizing u with
  | nil =>
    have hv : v = [] := (append_eq_nil_iff.1 h.symm).2
    exact .inl ⟨[], [], rfl, hv⟩
  | cons c t ih =>
    obtain ⟨lead, rest, henc, -, htrail, -⟩ := utf8EncodeChar_shape c
    rw [flatMap_cons] at h
    rcases append_eq_append_iff.1 h with ⟨w, hw, hrest⟩ | ⟨w, hw, hrest⟩
    · rcases ih hrest with ⟨t₁, t₂, rfl, hv⟩ | hv
      · exact .inl ⟨c :: t₁, t₂, rfl, hv⟩
      · exact .inr hv
    · cases u with
      | nil => exact .inl ⟨[], c :: t, rfl, by rw [hrest, flatMap_cons, hw]; rfl⟩
      | cons b u =>
        rw [henc, cons_append] at hw
        obtain ⟨-, hw⟩ := List.cons.inj hw
        cases w with
        | nil => exact .inl ⟨[c], t, rfl, hrest⟩
        | cons b' w =>
          refine .inr ⟨b', w ++ t.flatMap String.utf8EncodeChar, hrest, htrail b' ?_⟩
          rw [hw]
          exact mem_append_right _ mem_cons_self

/-- A search over the bytes is a search over the characters, if no single wildcard can stand for a
part of a character. -/
theorem matches_encode_iff {p t : List Char} (hone : '?' ∉ p ∨ ∀ c ∈ t, c.toNat < 128) :
    Matches ((p.flatMap String.utf8EncodeChar).map byteToken) (t.flatMap String.utf8EncodeChar) ↔
      Matches (p.map charToken) t := by
  induction p generalizing t with
  | nil =>
    rw [flatMap_nil, map_nil, map_nil, matches_nil_left, matches_nil_left]
    cases t with
    | nil => exact iff_of_true rfl rfl
    | cons c t =>
      obtain ⟨lead, rest, henc, -⟩ := utf8EncodeChar_shape c
      rw [flatMap_cons, henc]
      exact iff_of_false (cons_ne_nil _ _) (cons_ne_nil _ _)
  | cons c p ih =>
    have hone' : ∀ t', t' <:+ t → '?' ∉ p ∨ ∀ c ∈ t', c.toNat < 128 := fun t' ht' =>
      hone.imp (fun h hmem => h (mem_cons_of_mem _ hmem)) fun h d hd => h d (ht'.subset hd)
    rw [flatMap_cons, map_append, map_cons]
    by_cases hstar : c = '*'
    · subst hstar
      have htoken : charToken '*' = .star := rfl
      rw [byteToken_encode_star, htoken, cons_append, nil_append, matches_star]
      constructor
      · rintro ⟨u, v, huv, hmatch⟩
        rcases encode_suffix huv with ⟨t₁, t₂, rfl, rfl⟩ | ⟨b, v', rfl, hb⟩
        · exact Matches.star_append (.skip ((ih (hone' t₂ (suffix_append _ _))).1 hmatch)) t₁
        · cases p with
          | nil => exact absurd (matches_nil_left.1 hmatch) (cons_ne_nil _ _)
          | cons d p =>
            by_cases hd : d = '*'
            · subst hd
              rw [flatMap_cons, map_append, byteToken_encode_star] at hmatch ih
              have hall : Matches _ (u ++ b :: v') := Matches.star_append hmatch u
              rw [← huv] at hall
              exact .skip ((ih (hone' t (suffix_refl t))).1 hall)
            · by_cases hq : d = '?'
              · subst hq
                have hascii := hone.resolve_left (by simp)
                have hmem : b ∈ t.flatMap String.utf8EncodeChar := by
                  rw [huv]
                  exact mem_append_right _ mem_cons_self
                obtain ⟨e, he, hbe⟩ := mem_flatMap.1 hmem
                obtain ⟨b', henc, hb'⟩ := utf8EncodeChar_ascii (hascii e he)
                rw [henc, mem_singleton] at hbe
                have := hascii e he
                have := hb.1
                rw [hbe] at this
                omega
              · obtain ⟨lead, rest, henc, hlead, -⟩ := utf8EncodeChar_shape d
                rw [flatMap_cons, map_append, byteToken_encode_lit hd hq, henc, map_cons,
                  cons_append, matches_lit_cons] at hmatch
                exact absurd hb (hmatch.1 ▸ hlead)
      · intro hmatch
        obtain ⟨u, v, rfl, hrest⟩ := matches_star.1 hmatch
        exact ⟨u.flatMap String.utf8EncodeChar, v.flatMap String.utf8EncodeChar, flatMap_append,
          (ih (hone' v (suffix_append _ _))).2 hrest⟩
    · by_cases hq : c = '?'
      · subst hq
        have hascii := hone.resolve_left (by simp)
        have htoken : charToken '?' = .one := rfl
        rw [byteToken_encode_one, htoken, cons_append, nil_append]
        cases t with
        | nil => exact iff_of_false (fun h => by cases h) (fun h => by cases h)
        | cons d t =>
          obtain ⟨b, henc, -⟩ := utf8EncodeChar_ascii (hascii d mem_cons_self)
          rw [flatMap_cons, henc, cons_append, nil_append, matches_one_cons, matches_one_cons,
            ih (hone' t (suffix_cons d t))]
      · rw [byteToken_encode_lit hstar hq, charToken_lit hstar hq, matches_map_lit_append]
        cases t with
        | nil =>
          refine iff_of_false ?_ (fun h => by cases h)
          rintro ⟨v, hv, -⟩
          obtain ⟨lead, rest, henc, -⟩ := utf8EncodeChar_shape c
          rw [henc] at hv
          cases hv
        | cons d t =>
          rw [matches_lit_cons, ← ih (hone' t (suffix_cons d t)), flatMap_cons]
          constructor
          · rintro ⟨v, hv, hmatch⟩
            obtain ⟨rfl, rfl⟩ := utf8EncodeChar_append_inj hv
            exact ⟨rfl, hmatch⟩
          · rintro ⟨rfl, hmatch⟩
            exact ⟨_, rfl, hmatch⟩

theorem star_mem_of_asterisk_mem (h : asterisk ∈ asBytes s) : '*' ∈ s.toList := by
  rw [asBytes_eq_flatMap] at h
  obtain ⟨c, hc, hb⟩ := mem_flatMap.1 h
  obtain ⟨lead, rest, henc, -, htrail, hascii, hwide⟩ := utf8EncodeChar_shape c
  have h42 : asterisk.toNat = 42 := rfl
  rw [henc] at hb
  rcases mem_cons.1 hb with rfl | hb
  · by_cases hlt : c.toNat < 128
    · rwa [← eq_of_toNat_eq (d := '*') ((hascii hlt).2.symm.trans h42)]
    · have := (hwide (not_lt.1 hlt)).1
      omega
  · have := (htrail _ hb).1
    omega

theorem globMatch_iff {pattern text : String} (hstar : '*' ∉ pattern.toList ∨ '*' ∉ text.toList)
    (hone : '?' ∉ pattern.toList ∨ ∀ c ∈ text.toList, c.toNat < 128) :
    globMatch pattern text = true ↔ InLanguage pattern text := by
  have hplain : asterisk ∉ asBytes pattern ∨ asterisk ∉ asBytes text :=
    hstar.imp (mt star_mem_of_asterisk_mem) (mt star_mem_of_asterisk_mem)
  rw [globMatch_iff_bytes hplain, asBytes_eq_flatMap, asBytes_eq_flatMap, matches_encode_iff hone]
  rfl

theorem length_le_encode (t : List Char) : t.length ≤ (t.flatMap String.utf8EncodeChar).length := by
  induction t with
  | nil => exact le_rfl
  | cons c t ih =>
    obtain ⟨lead, rest, henc, -⟩ := utf8EncodeChar_shape c
    rw [flatMap_cons, henc, length_append, length_cons, length_cons]
    omega

theorem length_lt_encode {t : List Char} (hc : c ∈ t) (hwide : ¬ c.toNat < 128) :
    t.length < (t.flatMap String.utf8EncodeChar).length := by
  obtain ⟨u, v, rfl⟩ := append_of_mem hc
  obtain ⟨lead, rest, henc, -, -, -, hshape⟩ := utf8EncodeChar_shape c
  have hrest := length_pos_iff.2 (hshape (not_lt.1 hwide)).2
  have hu := length_le_encode u
  have hv := length_le_encode v
  rw [flatMap_append, flatMap_cons, henc, length_append, length_append,
    length_append, length_cons, length_cons]
  omega

def wildcards (n : Nat) : List Char := List.replicate n '?'

theorem encode_wildcards :
    (wildcards n).flatMap String.utf8EncodeChar = List.replicate n questionMark := by
  induction n with
  | zero => rfl
  | succ n ih =>
    rw [wildcards, replicate_succ, flatMap_cons, ← wildcards, ih]
    rfl

theorem map_charToken_wildcards : (wildcards n).map charToken = List.replicate n .one :=
  map_replicate

theorem globMatch_wildcards {text : String} (hc : c ∈ text.toList) (hwide : ¬ c.toNat < 128) :
    InLanguage (String.ofList (wildcards text.toList.length)) text ∧
      globMatch (String.ofList (wildcards text.toList.length)) text = false := by
  have hbytes : asBytes (String.ofList (wildcards text.toList.length)) =
      List.replicate text.toList.length questionMark := by
    rw [asBytes_ofList, encode_wildcards]
  constructor
  · rw [InLanguage, String.toList_ofList, map_charToken_wildcards, matches_replicate_one]
  · have hplain : asterisk ∉ asBytes (String.ofList (wildcards text.toList.length)) := by
      rw [hbytes]
      exact fun h => absurd (eq_of_mem_replicate h) (by decide)
    rw [← Bool.not_eq_true, globMatch_iff_bytes (.inl hplain), hbytes, map_replicate]
    have htoken : byteToken questionMark = .one := rfl
    rw [htoken, matches_replicate_one, asBytes_eq_flatMap]
    exact (length_lt_encode hc hwide).ne'

theorem globLoop_straight {p t : Bytes} {i fuel : Nat} (hi : i ≤ t.length) (hfuel : t.length - i < fuel)
    (h : ∀ k, i ≤ k → k < t.length → k < p.length ∧ (p[k]? = some questionMark ∨ p[k]? = t[k]?)) :
    globLoop p t fuel { pi := i, ti := i } = some { pi := t.length, ti := t.length } := by
  induction fuel generalizing i with
  | zero => exact absurd hfuel (Nat.not_lt_zero _)
  | succ fuel ih =>
    rw [globLoop]
    by_cases hlt : i < t.length
    · have hstep : globStep p t { pi := i, ti := i } = some { pi := i + 1, ti := i + 1 } :=
        if_pos (h i le_rfl hlt)
      rw [if_pos hlt, hstep, Option.bind_some]
      exact ih hlt (by omega) fun k hk => h k (by omega)
    · rw [if_neg hlt, Nat.le_antisymm hi (not_lt.1 hlt)]

theorem globMatch_star_of_text (htext : text.toList = u ++ '*' :: v)
    (hascii : ∀ c ∈ text.toList, c.toNat < 128) :
    InLanguage (String.ofList (wildcards u.length ++ '*' :: wildcards (v.length + 1))) text ∧
      globMatch (String.ofList (wildcards u.length ++ '*' :: wildcards (v.length + 1))) text = false := by
  have hsize : ∀ l : List Char, (∀ c ∈ l, c.toNat < 128) →
      (l.flatMap String.utf8EncodeChar).length = l.length := by
    intro l hl
    induction l with
    | nil => rfl
    | cons c l ih =>
      obtain ⟨b, henc, -⟩ := utf8EncodeChar_ascii (hl c mem_cons_self)
      rw [flatMap_cons, henc, length_append, ih fun d hd => hl d (mem_cons_of_mem _ hd)]
      rw [length_cons, length_nil, length_cons, Nat.add_comm]
  rw [htext] at hascii
  have hu := hsize u fun c hc => hascii c (mem_append_left _ hc)
  have hv := hsize v fun c hc => hascii c (mem_append_right _ (mem_cons_of_mem _ hc))
  have hstarBytes : String.utf8EncodeChar '*' = [asterisk] := by decide
  have hbytes : asBytes (String.ofList (wildcards u.length ++ '*' :: wildcards (v.length + 1))) =
      List.replicate u.length questionMark ++ asterisk :: List.replicate (v.length + 1) questionMark := by
    rw [asBytes_ofList, flatMap_append, flatMap_cons, encode_wildcards, encode_wildcards, hstarBytes]
    rfl
  have htextBytes : asBytes text = u.flatMap String.utf8EncodeChar ++
      asterisk :: v.flatMap String.utf8EncodeChar := by
    rw [asBytes_eq_flatMap, htext, flatMap_append, flatMap_cons, hstarBytes]
    rfl
  have hlen : (asBytes text).length = u.length + (v.length + 1) := by
    rw [htextBytes, length_append, length_cons, hu, hv]
  constructor
  · rw [InLanguage, String.toList_ofList, htext, map_append, map_cons, map_charToken_wildcards,
      map_charToken_wildcards]
    exact Matches.append (matches_replicate_one.2 rfl) (.skip (matches_replicate_one.2 rfl))
  · rw [globMatch, hbytes]
    have hloop := @globLoop_straight (List.replicate u.length questionMark ++
      asterisk :: List.replicate (v.length + 1) questionMark) (asBytes text) 0 (((asBytes text).length + 1) * ((List.replicate u.length questionMark ++
        asterisk :: List.replicate (v.length + 1) questionMark).length + 1)) (Nat.zero_le _) (by
        rw [Nat.sub_zero]
        exact Nat.le_mul_of_pos_right _ (Nat.succ_pos _)) ?_
    · rw [hloop, globAnswer, hlen]
      have hdrop : (List.replicate u.length questionMark ++
          asterisk :: List.replicate (v.length + 1) questionMark).drop (u.length + (v.length + 1)) =
          [questionMark] := by
        rw [drop_append, drop_eq_nil_of_le (by simp), length_replicate,
          Nat.add_sub_cancel_left, drop_succ_cons, drop_replicate, Nat.add_sub_cancel_left]
        rfl
      rw [hdrop]
      decide
    · intro k _ hk
      rw [hlen] at hk
      refine ⟨by simp; omega, ?_⟩
      rcases lt_trichotomy k u.length with hlt | rfl | hgt
      · left
        rw [getElem?_append_left (by simpa using hlt), getElem?_replicate, if_pos hlt]
      · right
        rw [htextBytes, getElem?_append_right (by simp), getElem?_append_right hu.le, hu,
          length_replicate, Nat.sub_self]
        rfl
      · left
        rw [getElem?_append_right (by simpa using hgt.le), length_replicate]
        obtain ⟨m, hm⟩ : ∃ m, k - u.length = m + 1 := ⟨k - u.length - 1, by omega⟩
        rw [hm, getElem?_cons_succ, getElem?_replicate, if_pos (by omega)]

end Obsetync
