import Obsetync.StorageLayout
import Obsetync.Utf8

namespace Obsetync
open List

def hexValue (b : UInt8) : Option Nat :=
  if 65 ≤ b && b ≤ 70 then some (b.toNat - 65 + 10)
  else if 97 ≤ b && b ≤ 102 then some (b.toNat - 97 + 10)
  else if 48 ≤ b && b ≤ 57 then some (b.toNat - 48)
  else none

/-- `hex::decode`. -/
def hexDecode : Bytes → Option Bytes
  | [] => some []
  | [_] => none
  | high :: low :: rest => do
    let high ← hexValue high
    let low ← hexValue low
    let bytes ← hexDecode rest
    return UInt8.ofNat (16 * high + low) :: bytes

def hashToHex (hash : FileHash) : String := hexEncode hash.val

def hexToHash (s : String) : Option FileHash := do
  let bytes ← hexDecode (asBytes s)
  if h : bytes.length = 32 then some ⟨bytes, h⟩ else none

def isLowerHexByte (b : UInt8) : Bool := 48 ≤ b && b ≤ 57 || 97 ≤ b && b ≤ 102

def lowerHex (value : String) (length : Nat) : Bool :=
  value.utf8ByteSize = length && (asBytes value).all isLowerHexByte

variable {bytes : Bytes}

theorem hexDigit_encode (h : n < 16) :
    ∃ b, String.utf8EncodeChar (hexDigit n) = [b] ∧ isLowerHexByte b = true ∧ hexValue b = some n := by
  have hall : ∀ n < 16, (String.utf8EncodeChar (hexDigit n)).length = 1 ∧
      (String.utf8EncodeChar (hexDigit n)).all isLowerHexByte ∧
      (String.utf8EncodeChar (hexDigit n)).all (hexValue · = some n) := by decide
  obtain ⟨hlen, hlower, hvalue⟩ := hall n h
  obtain ⟨b, hb⟩ := length_eq_one_iff.1 hlen
  rw [hb, all_cons, all_nil, Bool.and_true] at hlower hvalue
  exact ⟨b, hb, hlower, of_decide_eq_true hvalue⟩

theorem hexEncode_cons (b : UInt8) (bytes : Bytes) : ∃ high low,
    asBytes (hexEncode (b :: bytes)) = high :: low :: asBytes (hexEncode bytes) ∧
      isLowerHexByte high = true ∧ isLowerHexByte low = true ∧
      hexValue high = some (b.toNat / 16) ∧ hexValue low = some (b.toNat % 16) := by
  have hb : b.toNat < 256 := b.toNat_lt
  obtain ⟨high, hhigh, hlower, hvalue⟩ := hexDigit_encode (n := b.toNat / 16) (by omega)
  obtain ⟨low, hlow, hlower', hvalue'⟩ := hexDigit_encode (n := b.toNat % 16) (by omega)
  refine ⟨high, low, ?_, hlower, hlower', hvalue, hvalue'⟩
  rw [hexEncode, hexEncode, asBytes_ofList, asBytes_ofList]
  change (hexDigit _ :: hexDigit _ :: hexChars bytes).flatMap _ = _
  rw [flatMap_cons, flatMap_cons, hhigh, hlow]
  rfl

theorem hexDecode_hexEncode : hexDecode (asBytes (hexEncode bytes)) = some bytes := by
  induction bytes with
  | nil => rfl
  | cons b bytes ih =>
    obtain ⟨high, low, hcons, -, -, hhigh, hlow⟩ := hexEncode_cons b bytes
    rw [hcons, hexDecode, hhigh, hlow, ih]
    change some (UInt8.ofNat (16 * (b.toNat / 16) + b.toNat % 16) :: bytes) = _
    rw [Nat.div_add_mod, UInt8.ofNat_toNat]

theorem isLowerHexByte_hexEncode (bytes : Bytes) : (asBytes (hexEncode bytes)).all isLowerHexByte = true := by
  induction bytes with
  | nil => rfl
  | cons b bytes ih =>
    obtain ⟨high, low, hcons, hhigh, hlow, -⟩ := hexEncode_cons b bytes
    rw [hcons, all_cons, all_cons, hhigh, hlow, ih]
    rfl

theorem length_hexEncode : (asBytes (hexEncode bytes)).length = 2 * bytes.length := by
  rw [hexEncode, asBytes_ofList, (hexChars_ascii bytes).1]

theorem hexToHash_hashToHex (hash : FileHash) : hexToHash (hashToHex hash) = some hash := by
  rw [hexToHash, hashToHex, hexDecode_hexEncode]
  exact dif_pos hash.property

theorem length_hashToHex (hash : FileHash) : (asBytes (hashToHex hash)).length = 64 := by
  rw [hashToHex, length_hexEncode, hash.property]

theorem lowerHex_hashToHex (hash : FileHash) : lowerHex (hashToHex hash) 64 = true := by
  rw [lowerHex, ← asBytes_length, length_hashToHex, hashToHex, isLowerHexByte_hexEncode]
  rfl

end Obsetync
