import Obsetync.Entry

namespace Obsetync
open List

def hexDigit (n : Nat) : Char := "0123456789abcdef".toList.getD n '0'

/-- `hex::encode`. -/
def hexChars (bytes : Bytes) : List Char :=
  bytes.flatMap fun b => [hexDigit (b.toNat / 16), hexDigit (b.toNat % 16)]

def hexEncode (bytes : Bytes) : String := String.ofList (hexChars bytes)

def isSafeByte (b : UInt8) : Bool :=
  48 ≤ b && b ≤ 57 || 65 ≤ b && b ≤ 90 || 97 ≤ b && b ≤ 122 || b = 45 || b = 95 || b = 46

def isSafeComponent (value : String) : Bool :=
  !value.isEmpty && value.utf8ByteSize ≤ 128 && value ≠ "." && value ≠ ".." &&
    (asBytes value).all isSafeByte

def storageComponent (hashBytes : Bytes → FileHash) (value : String) : String :=
  if isSafeComponent value then value
  else String.ofList ('~' :: hexChars (hashBytes (asBytes value)).val)

def tokensName : String := "tokens"

/-- An enrolled device: its id is 16 random bytes in hex. -/
structure Device where
  bytes : Bytes
  length_eq : bytes.length = 16

def Device.id (device : Device) : String := hexEncode device.bytes

variable {hashBytes : Bytes → FileHash} {device : Device} {value : String}

theorem hexDigit_ascii (h : n < 16) :
    ∃ b, String.utf8EncodeChar (hexDigit n) = [b] ∧ isSafeByte b = true := by
  have hall : ∀ n < 16, ((String.utf8EncodeChar (hexDigit n)).length = 1 ∧
      (String.utf8EncodeChar (hexDigit n)).all isSafeByte) := by decide
  obtain ⟨hlen, hsafe⟩ := hall n h
  obtain ⟨b, hb⟩ := length_eq_one_iff.1 hlen
  rw [hb] at hsafe
  exact ⟨b, hb, by simpa using hsafe⟩

theorem hexChars_ascii (bytes : Bytes) :
    ((hexChars bytes).flatMap String.utf8EncodeChar).length = 2 * bytes.length ∧
      ∀ b ∈ (hexChars bytes).flatMap String.utf8EncodeChar, isSafeByte b = true := by
  induction bytes with
  | nil => exact ⟨rfl, fun b hb => (not_mem_nil hb).elim⟩
  | cons x bytes ih =>
    obtain ⟨high, hhigh, hsafe⟩ := hexDigit_ascii (n := x.toNat / 16) (by
      have := x.toNat_lt
      omega)
    obtain ⟨low, hlow, hsafe'⟩ := hexDigit_ascii (n := x.toNat % 16) (Nat.mod_lt _ (by decide))
    have hcons : (hexChars (x :: bytes)).flatMap String.utf8EncodeChar =
        high :: low :: (hexChars bytes).flatMap String.utf8EncodeChar := by
      change (hexDigit _ :: hexDigit _ :: hexChars bytes).flatMap _ = _
      rw [flatMap_cons, flatMap_cons, hhigh, hlow]
      rfl
    rw [hcons]
    constructor
    · rw [length_cons, length_cons, ih.1, length_cons]
      omega
    · exact forall_mem_cons.2 ⟨hsafe, forall_mem_cons.2 ⟨hsafe', ih.2⟩⟩

theorem Device.length_id (device : Device) : (asBytes device.id).length = 32 := by
  rw [id, hexEncode, asBytes_ofList, (hexChars_ascii _).1, device.length_eq]

theorem Device.safe (device : Device) : isSafeComponent device.id = true := by
  have hlen := device.length_id
  have hsize : device.id.utf8ByteSize = 32 := by
    rw [← hlen, asBytes_length]
  have hsafe : (asBytes device.id).all isSafeByte = true := by
    rw [id, hexEncode, asBytes_ofList, all_eq_true]
    exact (hexChars_ascii _).2
  have hne {s : String} (h : (asBytes s).length ≠ 32) : device.id ≠ s := by
    rintro rfl
    exact h hlen
  rw [isSafeComponent, hsafe, hsize]
  simp [hne (s := "") (by decide), hne (s := ".") (by decide), hne (s := "..") (by decide)]

theorem Device.id_ne_tokens (device : Device) : device.id ≠ tokensName := by
  intro h
  have hlen := device.length_id
  rw [h] at hlen
  revert hlen
  decide

theorem storageComponent_id (device : Device) : storageComponent hashBytes device.id = device.id :=
  if_pos device.safe

theorem eq_id_of_storageComponent (h : storageComponent hashBytes value = device.id) :
    value = device.id := by
  rw [storageComponent] at h
  split_ifs at h with hsafe
  · exact h
  · have htilde := device.safe
    rw [← h, isSafeComponent, asBytes_ofList, flatMap_cons] at htilde
    simp [isSafeByte, String.utf8EncodeChar] at htilde

end Obsetync
