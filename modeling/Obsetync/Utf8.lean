import Obsetync.Text

namespace Obsetync
open List

theorem ofNat_lt_ofNat (hm : m < 256) (hn : n < 256) : UInt8.ofNat m < UInt8.ofNat n ↔ m < n := by
  rw [UInt8.lt_iff_toNat_lt, UInt8.toNat_ofNat', UInt8.toNat_ofNat']
  omega

theorem ofNat_le_ofNat (hm : m < 256) (hn : n < 256) : UInt8.ofNat m ≤ UInt8.ofNat n ↔ m ≤ n := by
  rw [UInt8.le_iff_toNat_le, UInt8.toNat_ofNat', UInt8.toNat_ofNat']
  omega

theorem ofNat_beq_ofNat (hm : m < 256) (hn : n < 256) :
    (UInt8.ofNat m == UInt8.ofNat n) = decide (m = n) := by
  rw [Bool.eq_iff_iff, beq_iff_eq, decide_eq_true_iff, ← UInt8.toNat_inj, UInt8.toNat_ofNat',
    UInt8.toNat_ofNat']
  omega

theorem isContinuation_ofNat : isContinuation (UInt8.ofNat (n % 64 + 128)) = true := by
  have hall : ∀ m < 64, isContinuation (UInt8.ofNat (m + 128)) = true := by decide
  exact hall _ (Nat.mod_lt _ (by decide))

theorem lowBits_ofNat : lowBits (UInt8.ofNat (n % 64 + 128)) = n % 64 := by
  rw [lowBits, UInt8.toNat_ofNat']
  omega

theorem lossyStep_ofNat (hlead : lead < 256) : lossyStep (UInt8.ofNat lead) rest =
      if lead < 128 then (Char.ofNat lead, 0)
      else if 194 ≤ lead ∧ lead ≤ 223 then
        if !isContinuation (rest.getD 0 0) then ('�', 0)
        else (Char.ofNat (lead % 32 * 64 + lowBits (rest.getD 0 0)), 1)
      else if 224 ≤ lead ∧ lead ≤ 239 then
        if !validSecond (UInt8.ofNat lead) (rest.getD 0 0) then ('�', 0)
        else if !isContinuation (rest.getD 1 0) then ('�', 1)
        else (Char.ofNat (lead % 16 * 4096 + lowBits (rest.getD 0 0) * 64 + lowBits (rest.getD 1 0)), 2)
      else if 240 ≤ lead ∧ lead ≤ 244 then
        if !validSecond (UInt8.ofNat lead) (rest.getD 0 0) then ('�', 0)
        else if !isContinuation (rest.getD 1 0) then ('�', 1)
        else if !isContinuation (rest.getD 2 0) then ('�', 2)
        else (Char.ofNat (lead % 8 * 262144 + lowBits (rest.getD 0 0) * 4096 +
          lowBits (rest.getD 1 0) * 64 + lowBits (rest.getD 2 0)), 3)
      else ('�', 0) := by
  have hnat : (UInt8.ofNat lead).toNat = lead := by
    rw [UInt8.toNat_ofNat', Nat.mod_eq_of_lt hlead]
  have hlt : UInt8.ofNat lead < 0x80 ↔ lead < 128 := ofNat_lt_ofNat hlead (by decide)
  have hge (n : Nat) (hn : n < 256) := ofNat_le_ofNat hn hlead
  have hle (n : Nat) (hn : n < 256) := ofNat_le_ofNat hlead hn
  have htwo := and_congr (hge 194 (by decide)) (hle 223 (by decide))
  have hthree := and_congr (hge 224 (by decide)) (hle 239 (by decide))
  have hfour := and_congr (hge 240 (by decide)) (hle 244 (by decide))
  simp only [lossyStep, hnat, hlt, Bool.and_eq_true, decide_eq_true_eq]
  exact if_congr Iff.rfl rfl (if_congr htwo rfl (if_congr hthree rfl (if_congr hfour rfl rfl)))

theorem validSecond_ofNat (hlead : lead < 256) (h : 128 ≤ second) (h' : second ≤ 191)
    (he0 : lead = 224 → 160 ≤ second) (hed : lead = 237 → second ≤ 159)
    (hf0 : lead = 240 → 144 ≤ second) (hf4 : lead = 244 → second ≤ 143) :
    validSecond (UInt8.ofNat lead) (UInt8.ofNat second) = true := by
  have hsecond : second < 256 := by omega
  have hge (n : Nat) (hn : n < 256) (hle : n ≤ second) :=
    decide_eq_true ((ofNat_le_ofNat hn hsecond).2 hle)
  have hle (n : Nat) (hn : n < 256) (hge : second ≤ n) :=
    decide_eq_true ((ofNat_le_ofNat hsecond hn).2 hge)
  have hbeq (n : Nat) (hn : n < 256) (hb : (UInt8.ofNat lead == UInt8.ofNat n) = true) : lead = n := by
    rw [ofNat_beq_ofNat hlead hn] at hb
    exact of_decide_eq_true hb
  have htop := hle 191 (by decide) h'
  have hbottom := hge 128 (by decide) h
  rw [validSecond]
  split_ifs with h1 h2 h3 h4
  · exact Bool.and_eq_true_iff.2 ⟨hge 160 (by decide) (he0 (hbeq 224 (by decide) h1)), htop⟩
  · exact Bool.and_eq_true_iff.2 ⟨hbottom, hle 159 (by decide) (hed (hbeq 237 (by decide) h2))⟩
  · exact Bool.and_eq_true_iff.2 ⟨hge 144 (by decide) (hf0 (hbeq 240 (by decide) h3)), htop⟩
  · exact Bool.and_eq_true_iff.2 ⟨hbottom, hle 143 (by decide) (hf4 (hbeq 244 (by decide) h4))⟩
  · exact Bool.and_eq_true_iff.2 ⟨hbottom, htop⟩

theorem lossyStep_encode (c : Char) (tail : Bytes) :
    ∃ lead rest, String.utf8EncodeChar c = lead :: rest ∧
      lossyStep lead (rest ++ tail) = (c, rest.length) := by
  have hc : Char.ofNat c.val.toNat = c := c.ofNat_toNat
  have hval : c.val.toNat < 55296 ∨ 57343 < c.val.toNat ∧ c.val.toNat < 1114112 := c.valid
  rw [String.utf8EncodeChar]
  generalize c.val.toNat = v at hc hval ⊢
  by_cases h1 : v ≤ 127
  · refine ⟨_, _, if_pos h1, ?_⟩
    rw [lossyStep_ofNat (by omega), if_pos (by omega), hc]
    rfl
  rw [if_neg h1]
  by_cases h2 : v ≤ 2047
  · refine ⟨_, _, if_pos h2, ?_⟩
    rw [lossyStep_ofNat (by omega), if_neg (by omega), if_pos (by omega)]
    simp only [cons_append, getD_cons_zero, isContinuation_ofNat, lowBits_ofNat,
      Bool.not_true, Bool.false_eq_true, if_false]
    rw [← hc]
    congr 2
    omega
  rw [if_neg h2]
  by_cases h3 : v ≤ 65535
  · refine ⟨_, _, if_pos h3, ?_⟩
    have hsecond : validSecond (UInt8.ofNat (v / 4096 % 16 + 224))
        (UInt8.ofNat (v / 64 % 64 + 128)) = true := by
      apply validSecond_ofNat <;> omega
    rw [lossyStep_ofNat (by omega), if_neg (by omega), if_neg (by omega), if_pos (by omega)]
    simp only [cons_append, getD_cons_zero, getD_cons_succ, hsecond,
      isContinuation_ofNat, lowBits_ofNat, Bool.not_true, Bool.false_eq_true, if_false]
    rw [← hc]
    congr 2
    omega
  · refine ⟨_, _, if_neg h3, ?_⟩
    have hsecond : validSecond (UInt8.ofNat (v / 262144 % 8 + 240))
        (UInt8.ofNat (v / 4096 % 64 + 128)) = true := by
      apply validSecond_ofNat <;> omega
    rw [lossyStep_ofNat (by omega), if_neg (by omega), if_neg (by omega), if_neg (by omega),
      if_pos (by omega)]
    simp only [cons_append, getD_cons_zero, getD_cons_succ, hsecond,
      isContinuation_ofNat, lowBits_ofNat, Bool.not_true, Bool.false_eq_true, if_false]
    rw [← hc]
    congr 2
    omega

theorem lossyChars_encode (cs : List Char) (fuel : Nat)
    (hfuel : (cs.flatMap String.utf8EncodeChar).length ≤ fuel) :
    lossyChars fuel (cs.flatMap String.utf8EncodeChar) = cs := by
  induction cs generalizing fuel with
  | nil => cases fuel <;> rfl
  | cons c cs ih =>
    obtain ⟨lead, rest, hencode, hstep⟩ := lossyStep_encode c (cs.flatMap String.utf8EncodeChar)
    rw [flatMap_cons, hencode] at hfuel ⊢
    rw [cons_append, length_cons, length_append] at hfuel
    obtain ⟨fuel, rfl⟩ : ∃ n, fuel = n + 1 := ⟨fuel - 1, by omega⟩
    rw [cons_append, lossyChars, hstep, drop_left, ih fuel (by omega)]

theorem asBytes_eq_flatMap (s : String) : asBytes s = s.toList.flatMap String.utf8EncodeChar := by
  rw [← asBytes_ofList, String.ofList_toList]

theorem fromUtf8Lossy_asBytes (s : String) : fromUtf8Lossy (asBytes s) = s := by
  rw [fromUtf8Lossy, asBytes_eq_flatMap, lossyChars_encode _ _ (le_refl _), String.ofList_toList]

theorem eq_of_toNat_eq {c d : Char} (h : c.toNat = d.toNat) : c = d := Char.ext (UInt32.toNat_inj.1 h)

def Trails (b : UInt8) : Prop := 128 ≤ b.toNat ∧ b.toNat < 192

theorem utf8EncodeChar_shape (c : Char) : ∃ lead rest, String.utf8EncodeChar c = lead :: rest ∧
    ¬ Trails lead ∧ (∀ b ∈ rest, Trails b) ∧ (c.toNat < 128 → rest = [] ∧ lead.toNat = c.toNat) ∧
    (128 ≤ c.toNat → 128 ≤ lead.toNat ∧ rest ≠ []) := by
  have hval : c.val.toNat < 55296 ∨ 57343 < c.val.toNat ∧ c.val.toNat < 1114112 := c.valid
  have htrail : ∀ n, Trails (UInt8.ofNat (n % 64 + 128)) := fun n => by
    rw [Trails, UInt8.toNat_ofNat']
    omega
  rw [String.utf8EncodeChar, Char.toNat]
  generalize c.val.toNat = v at hval ⊢
  by_cases h1 : v ≤ 127
  · refine ⟨_, _, if_pos h1, ?_, ?_, fun _ => ⟨rfl, ?_⟩, fun h => by omega⟩
    · rw [Trails, UInt8.toNat_ofNat']
      omega
    · intro b hb
      cases hb
    · rw [UInt8.toNat_ofNat']
      omega
  rw [if_neg h1]
  by_cases h2 : v ≤ 2047
  · refine ⟨_, _, if_pos h2, ?_, ?_, fun h => by omega, fun _ => ⟨?_, cons_ne_nil _ _⟩⟩
    · rw [Trails, UInt8.toNat_ofNat']
      omega
    · simp only [mem_cons, not_mem_nil, or_false, forall_eq]
      exact htrail _
    · rw [UInt8.toNat_ofNat']
      omega
  rw [if_neg h2]
  by_cases h3 : v ≤ 65535
  · refine ⟨_, _, if_pos h3, ?_, ?_, fun h => by omega, fun _ => ⟨?_, cons_ne_nil _ _⟩⟩
    · rw [Trails, UInt8.toNat_ofNat']
      omega
    · simp only [mem_cons, not_mem_nil, or_false, forall_eq_or_imp, forall_eq]
      exact ⟨htrail _, htrail _⟩
    · rw [UInt8.toNat_ofNat']
      omega
  · refine ⟨_, _, if_neg h3, ?_, ?_, fun h => by omega, fun _ => ⟨?_, cons_ne_nil _ _⟩⟩
    · rw [Trails, UInt8.toNat_ofNat']
      omega
    · simp only [mem_cons, not_mem_nil, or_false, forall_eq_or_imp, forall_eq]
      exact ⟨htrail _, htrail _, htrail _⟩
    · rw [UInt8.toNat_ofNat']
      omega

theorem utf8EncodeChar_ascii (h : c.toNat < 128) :
    ∃ b : UInt8, String.utf8EncodeChar c = [b] ∧ b.toNat = c.toNat := by
  obtain ⟨lead, rest, henc, -, -, hascii, -⟩ := utf8EncodeChar_shape c
  obtain ⟨rfl, hlead⟩ := hascii h
  exact ⟨lead, henc, hlead⟩

theorem utf8EncodeChar_append_inj
    (h : String.utf8EncodeChar c ++ x = String.utf8EncodeChar d ++ y) : c = d ∧ x = y := by
  obtain ⟨lead, rest, hc, hstep⟩ := lossyStep_encode c x
  obtain ⟨lead', rest', hd, hstep'⟩ := lossyStep_encode d y
  rw [hc, hd, cons_append, cons_append] at h
  obtain ⟨rfl, hrest⟩ := List.cons.inj h
  rw [hrest, hstep', Prod.mk.injEq] at hstep
  obtain ⟨rfl, -⟩ := hstep
  rw [hc] at hd
  cases hd
  exact ⟨rfl, append_cancel_left hrest⟩

end Obsetync
