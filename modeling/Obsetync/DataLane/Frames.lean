import Obsetync.Text
import Obsetync.Wire

/-! Frames of the data lane, as both ends see them after decoding. -/

namespace Obsetync.DataLane
open Wire

inductive FrameType
  | hello
  | helloAck
  | checkObjects
  | checkResult
  | putPack
  | putAck
  | getPack
  | getResult
  | cancel
  | error
  deriving DecidableEq

inductive WireVersion
  | v1
  | v2
  deriving DecidableEq

structure LaneLimits where
  maxPayloadBytes : Nat
  maxInflightRequests : Nat
  maxInflightBytes : Nat
  deriving DecidableEq

structure NegotiatedLane where
  wire : WireVersion
  limits : LaneLimits
  maxFragmentPayloadBytes : Nat
  maxFragments : Nat
  deriving DecidableEq

/-- A fragment of a logical frame; an `OBW1` frame is the only fragment of itself. -/
structure Fragment where
  kind : FrameType
  requestId : Nat
  logicalLen : Nat
  offset : Nat
  fragmentIndex : Nat
  fragmentCount : Nat
  payload : Bytes
  deriving DecidableEq

def maxPayloadBytes : Nat := 4 * 1024 * 1024
def maxInflightRequests : Nat := 4
def maxInflightBytes : Nat := 32 * 1024 * 1024
def maxFragmentPayloadBytes : Nat := 64 * 1024
def maxFragments : Nat := 64
def maxRunningRequests : Nat := 2
def busyRetryAfterMs : Nat := 25
def maxControlFragmentBurst : Nat := 4
def errorHeaderBytes : Nat := 14
def maxErrorMessageBytes : Nat := 256

def isRequestKind : FrameType → Bool
  | .checkObjects => true
  | .putPack => true
  | .getPack => true
  | _ => false

def negotiateLimits (requested : LaneLimits) : Option LaneLimits :=
  if requested.maxPayloadBytes < 1024 || requested.maxInflightRequests = 0 ||
      requested.maxInflightBytes < requested.maxPayloadBytes then none
  else some {
    maxPayloadBytes := min requested.maxPayloadBytes maxPayloadBytes
    maxInflightRequests := min requested.maxInflightRequests maxInflightRequests
    maxInflightBytes := min requested.maxInflightBytes maxInflightBytes }

def negotiateLane (requested : NegotiatedLane) : Option NegotiatedLane :=
  match requested.wire with
  | .v1 => (negotiateLimits requested.limits).map fun limits =>
    ⟨.v1, limits, limits.maxPayloadBytes, 1⟩
  | .v2 =>
    if requested.maxFragmentPayloadBytes < 1024 || requested.maxFragments = 0 then none
    else
      let fragment := min requested.maxFragmentPayloadBytes maxFragmentPayloadBytes
      let fragments := min requested.maxFragments maxFragments
      let logical := min (min requested.limits.maxPayloadBytes maxPayloadBytes) (fragment * fragments)
      (negotiateLimits { requested.limits with maxPayloadBytes := logical }).map fun limits =>
        ⟨.v2, limits, fragment, fragments⟩

def fragmentCount (logicalLen maxFragmentPayloadBytes : Nat) : Option Nat :=
  if maxFragmentPayloadBytes = 0 then none
  else if logicalLen = 0 then some 1
  else some ((logicalLen + (maxFragmentPayloadBytes - 1)) / maxFragmentPayloadBytes)

def acceptsFragment (fragment : Fragment)
    (maxLogicalBytes maxFragmentPayloadBytes maxFragments : Nat) : Bool :=
  fragment.logicalLen ≤ maxLogicalBytes && fragment.payload.length ≤ maxFragmentPayloadBytes &&
    fragment.fragmentCount ≠ 0 && fragment.fragmentCount ≤ maxFragments &&
    some fragment.fragmentCount = fragmentCount fragment.logicalLen maxFragmentPayloadBytes &&
    fragment.fragmentIndex * maxFragmentPayloadBytes ≤ fragment.logicalLen &&
    fragment.fragmentIndex < fragment.fragmentCount &&
    fragment.offset = fragment.fragmentIndex * maxFragmentPayloadBytes &&
    fragment.payload.length =
      min (fragment.logicalLen - fragment.fragmentIndex * maxFragmentPayloadBytes)
        maxFragmentPayloadBytes

/-- `encode_fragment`, or nothing when it would not be decoded. -/
def encodeFragment (fragment : Fragment) (maxFragmentPayloadBytes maxFragments : Nat) :
    Option Fragment :=
  if fragment.logicalLen < 2 ^ 32 && fragment.offset < 2 ^ 32 && fragment.payload.length < 2 ^ 32 &&
      fragment.fragmentIndex < 2 ^ 16 && fragment.fragmentCount < 2 ^ 16 &&
      acceptsFragment fragment fragment.logicalLen maxFragmentPayloadBytes maxFragments then
    some fragment
  else none

def encodeFrame (kind : FrameType) (requestId : Nat) (payload : Bytes) (maxPayloadBytes : Nat) :
    Option Fragment :=
  if payload.length ≤ maxPayloadBytes && payload.length < 2 ^ 32 then
    some ⟨kind, requestId, payload.length, 0, 0, 1, payload⟩
  else none

inductive ErrorCode
  | invalidRequest
  | busy
  | internal
  | cancelled
  deriving DecidableEq

def ErrorCode.toNat : ErrorCode → Nat
  | .invalidRequest => 1
  | .busy => 2
  | .internal => 3
  | .cancelled => 4

def encodeError (code : ErrorCode) (retryAfterMs : Nat) (message : String) : Bytes :=
  let bytes := (asBytes message).take maxErrorMessageBytes
  asBytes "OWE1" ++ leBytes 2 code.toNat ++ leBytes 2 0 ++ leBytes 4 retryAfterMs ++
    leBytes 2 bytes.length ++ bytes

end Obsetync.DataLane
