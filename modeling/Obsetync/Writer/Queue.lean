import Obsetync.Assoc

namespace Obsetync.Writer

def channelMessages : Nat := 64
def queueBytes : Nat := 64 * 1024 * 1024
def bulkQueueMessages : Nat := 56
def bulkQueueBytes : Nat := 56 * 1024 * 1024
def maxActiveOwners : Nat := 64
def ownerQueueMessages : Nat := 24
def ownerQueueBytes : Nat := queueBytes
def ownerBulkMessages : Nat := 16
def ownerBulkBytes : Nat := 16 * 1024 * 1024
def ownerControlMessages : Nat := 8
def ownerControlBytes : Nat := 8 * 1024 * 1024

inductive WriterClass where
  | control
  | bulk
  deriving DecidableEq, Repr

inductive WriterOwner where
  | internal
  | authenticated (key : String)
  deriving DecidableEq, Repr

structure OwnerUsage where
  messages : Nat := 0
  bytes : Nat := 0
  bulkMessages : Nat := 0
  bulkBytes : Nat := 0
  deriving DecidableEq, Repr

structure QueueState where
  messages : Nat := 0
  bytes : Nat := 0
  bulkMessages : Nat := 0
  bulkBytes : Nat := 0
  owners : List (WriterOwner × OwnerUsage) := []
  deriving DecidableEq, Repr

/-- `StoreError::Busy`, or a panic of the arithmetic or of an `expect`. -/
inductive Fault where
  | busy
  | panic
  deriving DecidableEq, Repr

/-- What a reservation is for; `bytes` is a `u64`. -/
structure Reservation where
  owner : WriterOwner
  writerClass : WriterClass
  bytes : Nat
  deriving DecidableEq, Repr

def checkedAdd (a b : Nat) : Option Nat := if a + b < 2 ^ 64 then some (a + b) else none

def add (a b : Nat) : Except Fault Nat := if a + b < 2 ^ 64 then .ok (a + b) else .error .panic

def sub (a b : Nat) : Except Fault Nat := if b ≤ a then .ok (a - b) else .error .panic

/-- `a.checked_add(b).map_or(true, |value| value > limit)`. -/
def exceeds (a b limit : Nat) : Bool := (checkedAdd a b).all (limit < ·)

def controlLimit : WriterOwner → Nat
  | .internal => queueBytes
  | .authenticated _ => ownerControlBytes

namespace QueueState

def admitClass (state : QueueState) (current : OwnerUsage) (r : Reservation) : Except Fault Unit :=
  match r.writerClass with
  | .bulk =>
    match checkedAdd state.bulkMessages 1, checkedAdd state.bulkBytes r.bytes,
        checkedAdd current.bulkBytes r.bytes with
    | some nextBulkMessages, some nextBulkBytes, some nextOwnerBulkBytes =>
      if bulkQueueMessages < nextBulkMessages ∨ bulkQueueBytes < nextBulkBytes ∨
          ownerBulkMessages ≤ current.bulkMessages ∨ ownerBulkBytes < nextOwnerBulkBytes then
        .error .busy
      else .ok ()
    | _, _, _ => .error .busy
  | .control => do
    let controlMessages ← sub current.messages current.bulkMessages
    let controlBytes ← sub current.bytes current.bulkBytes
    if ownerControlMessages ≤ controlMessages ∨ exceeds controlBytes r.bytes (controlLimit r.owner) then
      .error .busy
    else .ok ()

/-- The checks of `reserve`, all made before its first assignment. -/
def admitReservation (state : QueueState) (r : Reservation) : Except Fault (Nat × Nat) :=
  match checkedAdd state.messages 1, checkedAdd state.bytes r.bytes with
  | some nextMessages, some nextBytes =>
    if channelMessages < nextMessages ∨ queueBytes < nextBytes then .error .busy
    else if (Assoc.find state.owners r.owner).isNone ∧ maxActiveOwners ≤ state.owners.length then
      .error .busy
    else
      let current := (Assoc.find state.owners r.owner).getD {}
      if ownerQueueMessages ≤ current.messages ∨ exceeds current.bytes r.bytes ownerQueueBytes then
        .error .busy
      else do
        state.admitClass current r
        return (nextMessages, nextBytes)
  | _, _ => .error .busy

def chargeUsage (usage : OwnerUsage) (r : Reservation) : Except Fault OwnerUsage := do
  let messages ← add usage.messages 1
  let bytes ← add usage.bytes r.bytes
  match r.writerClass with
  | .control => return { usage with messages, bytes }
  | .bulk =>
    let bulkMessages ← add usage.bulkMessages 1
    let bulkBytes ← add usage.bulkBytes r.bytes
    return { messages, bytes, bulkMessages, bulkBytes }

/-- The assignments of `reserve`. -/
def charge (state : QueueState) (nextMessages nextBytes : Nat) (r : Reservation) : Except Fault QueueState := do
  let state := { state with messages := nextMessages, bytes := nextBytes }
  let state ← match r.writerClass with
    | .control => .ok state
    | .bulk => do
      let bulkMessages ← add state.bulkMessages 1
      let bulkBytes ← add state.bulkBytes r.bytes
      pure { state with bulkMessages, bulkBytes }
  let usage ← chargeUsage ((Assoc.find state.owners r.owner).getD {}) r
  return { state with owners := Assoc.set state.owners r.owner usage }

def reserve (state : QueueState) (r : Reservation) : Except Fault Unit × QueueState :=
  match state.admitReservation r with
  | .error fault => (.error fault, state)
  | .ok (nextMessages, nextBytes) =>
    match state.charge nextMessages nextBytes r with
    | .error fault => (.error fault, state)
    | .ok state' => (.ok (), state')

def refundUsage (usage : OwnerUsage) (r : Reservation) : Except Fault OwnerUsage := do
  let messages ← sub usage.messages 1
  let bytes ← sub usage.bytes r.bytes
  match r.writerClass with
  | .control => return { usage with messages, bytes }
  | .bulk =>
    let bulkMessages ← sub usage.bulkMessages 1
    let bulkBytes ← sub usage.bulkBytes r.bytes
    return { messages, bytes, bulkMessages, bulkBytes }

def release (state : QueueState) (r : Reservation) : Except Fault QueueState := do
  let messages ← sub state.messages 1
  let bytes ← sub state.bytes r.bytes
  let state := { state with messages, bytes }
  let state ← match r.writerClass with
    | .control => .ok state
    | .bulk => do
      let bulkMessages ← sub state.bulkMessages 1
      let bulkBytes ← sub state.bulkBytes r.bytes
      pure { state with bulkMessages, bulkBytes }
  match Assoc.find state.owners r.owner with
  | none => .error .panic
  | some usage =>
    let usage ← refundUsage usage r
    if usage.messages = 0 then return { state with owners := Assoc.erase state.owners r.owner }
    else return { state with owners := Assoc.set state.owners r.owner usage }

end QueueState

/-- The queue and the reservations that were granted and not released. -/
structure Desk where
  state : QueueState := {}
  outstanding : List Reservation := []
  deriving DecidableEq, Repr

inductive Event where
  | reserve (r : Reservation)
  | release (r : Reservation)
  deriving DecidableEq, Repr

def Desk.step (desk : Desk) : Event → Except Fault Desk
  | .reserve r =>
    match desk.state.reserve r with
    | (.ok _, state) => .ok { state, outstanding := r :: desk.outstanding }
    | (.error .busy, state) => .ok { desk with state }
    | (.error .panic, _) => .error .panic
  | .release r =>
    if r ∈ desk.outstanding then do
      let state ← desk.state.release r
      return { state, outstanding := desk.outstanding.erase r }
    else .ok desk

def Desk.run (desk : Desk) (events : List Event) : Except Fault Desk := events.foldlM Desk.step desk

inductive Counter where
  | messages
  | bytes
  | bulkMessages
  | bulkBytes
  deriving DecidableEq, Repr

def OwnerUsage.count (usage : OwnerUsage) : Counter → Nat
  | .messages => usage.messages
  | .bytes => usage.bytes
  | .bulkMessages => usage.bulkMessages
  | .bulkBytes => usage.bulkBytes

def QueueState.count (state : QueueState) : Counter → Nat
  | .messages => state.messages
  | .bytes => state.bytes
  | .bulkMessages => state.bulkMessages
  | .bulkBytes => state.bulkBytes

def Reservation.weight (r : Reservation) : Counter → Nat
  | .messages => 1
  | .bytes => r.bytes
  | .bulkMessages => if r.writerClass = .bulk then 1 else 0
  | .bulkBytes => if r.writerClass = .bulk then r.bytes else 0

def weigh (l : List Reservation) (c : Counter) : Nat := (l.map (·.weight c)).sum

def ofOwner (l : List Reservation) (owner : WriterOwner) : List Reservation := l.filter (·.owner = owner)

/-- The counters are the sums over the outstanding reservations and over the owners. -/
structure Exact (state : QueueState) (outstanding : List Reservation) : Prop where
  total : ∀ c, state.count c = weigh outstanding c
  owners : ∀ c, state.count c = (state.owners.map (·.2.count c)).sum
  distinct : (state.owners.map Prod.fst).Nodup
  missing : ∀ owner, Assoc.find state.owners owner = none ↔ ofOwner outstanding owner = []
  usage : ∀ owner usage, Assoc.find state.owners owner = some usage →
    ∀ c, usage.count c = weigh (ofOwner outstanding owner) c

structure Ceilings (state : QueueState) : Prop where
  messages : state.messages ≤ channelMessages
  bytes : state.bytes ≤ queueBytes
  bulkMessages : state.bulkMessages ≤ bulkQueueMessages
  bulkBytes : state.bulkBytes ≤ bulkQueueBytes
  activeOwners : state.owners.length ≤ maxActiveOwners
  owner : ∀ owner usage, Assoc.find state.owners owner = some usage →
    usage.messages ≤ ownerQueueMessages ∧ usage.bytes ≤ ownerQueueBytes ∧
    usage.bulkMessages ≤ ownerBulkMessages ∧ usage.bulkBytes ≤ ownerBulkBytes ∧
    usage.messages - usage.bulkMessages ≤ ownerControlMessages ∧
    usage.bytes - usage.bulkBytes ≤ controlLimit owner

end Obsetync.Writer
