import Mathlib

namespace Obsetync

def maxSafeInteger : Nat := 9007199254740991

/-- The UTF-16 code units of a string. -/
def utf16Units (s : String) : List Nat :=
  s.toList.flatMap fun c =>
    if c.toNat < 0x10000 then [c.toNat]
    else [0xD800 + (c.toNat - 0x10000) / 0x400, 0xDC00 + (c.toNat - 0x10000) % 0x400]

/-- `String.prototype.length`. -/
def utf16Length (s : String) : Nat := (utf16Units s).length

/-- The order of JS strings. -/
def jsLt (a b : String) : Bool := utf16Units a < utf16Units b

def isLowerHex (c : Char) : Bool := ('0' ≤ c && c ≤ '9') || ('a' ≤ c && c ≤ 'f')

/-- `ROOT_HASH`: 64 lower-case hexadecimal digits. -/
def isRootHash (s : String) : Bool := s.toList.length = 64 && s.toList.all isLowerHex

def isSafeVaultPath (path : String) : Bool :=
  let cs := path.toList
  !cs.isEmpty && utf16Length path ≤ 4096 &&
  cs.head? ≠ some '/' && !cs.contains '\\' &&
  cs.all (fun c => !(c.toNat < 0x20 || c.toNat = 0x7f)) &&
  (cs.splitOn '/').all fun segment => !segment.isEmpty && segment ≠ ['.'] && segment ≠ ['.', '.']

end Obsetync
