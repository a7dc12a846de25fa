import Obsetync.Assoc
import Obsetync.DataLane.Frames

/-! The session loop of the server's data lane. -/

namespace Obsetync.DataLane

/-- Why a session ends. -/
inductive Stop
  | closed (reason : String)
  | protocol (reason : String)
  | panicked (message : String)
  deriving DecidableEq

inductive RpcPhase
  | assembling
  | queued
  | running
  | sending
  deriving DecidableEq

structure AdmissionLedger where
  maxRequests : Nat
  maxBytes : Nat
  usedBytes : Nat
  entries : List (Nat × Nat × RpcPhase)
  deriving DecidableEq

namespace AdmissionLedger

def new (limits : LaneLimits) : AdmissionLedger :=
  ⟨limits.maxInflightRequests, limits.maxInflightBytes, 0, []⟩

def admitRequest (ledger : AdmissionLedger) (requestId bytes : Nat) (phase : RpcPhase) :
    Option AdmissionLedger :=
  let next := ledger.usedBytes + bytes
  if ledger.maxRequests ≤ ledger.entries.length || ledger.maxBytes < next ||
      (Assoc.find ledger.entries requestId).isSome then none
  else some { ledger with
    usedBytes := next
    entries := Assoc.set ledger.entries requestId (bytes, phase) }

def markPhase (ledger : AdmissionLedger) (requestId : Nat) (source target : RpcPhase) :
    Except Stop AdmissionLedger :=
  match Assoc.find ledger.entries requestId with
  | none => .error (.panicked "RPC must retain admission across phases")
  | some (bytes, phase) =>
    if phase = source then
      .ok { ledger with entries := Assoc.set ledger.entries requestId (bytes, target) }
    else .error (.panicked "assertion failed: entry.1 == from")

def markQueued (ledger : AdmissionLedger) (requestId : Nat) : Except Stop AdmissionLedger :=
  ledger.markPhase requestId .assembling .queued

def markRunning (ledger : AdmissionLedger) (requestId : Nat) : Except Stop AdmissionLedger :=
  ledger.markPhase requestId .queued .running

def markSending (ledger : AdmissionLedger) (requestId : Nat) : Except Stop AdmissionLedger :=
  match Assoc.find ledger.entries requestId with
  | none => .error (.panicked "RPC must retain admission while sending")
  | some (bytes, _) =>
    .ok { ledger with entries := Assoc.set ledger.entries requestId (bytes, .sending) }

def isIn (ledger : AdmissionLedger) (requestId : Nat) (phase : RpcPhase) : Bool :=
  (Assoc.find ledger.entries requestId).any (·.2 = phase)

/-- `assert!(admission.finish(request_id))`. -/
def finish (ledger : AdmissionLedger) (requestId : Nat) : Except Stop AdmissionLedger :=
  match Assoc.find ledger.entries requestId with
  | none => .error (.panicked "assertion failed: admission.finish")
  | some (bytes, _) =>
    if ledger.usedBytes < bytes then .error (.panicked "RPC admission bytes underflow")
    else .ok { ledger with
      usedBytes := ledger.usedBytes - bytes
      entries := Assoc.erase ledger.entries requestId }

end AdmissionLedger

structure QueuedRpc where
  requestId : Nat
  kind : FrameType
  payload : Bytes
  deriving DecidableEq

structure Reassembly where
  requestId : Nat
  kind : FrameType
  logicalLen : Nat
  fragmentCount : Nat
  nextFragmentIndex : Nat
  payload : Bytes
  deriving DecidableEq

structure RejectedReassembly where
  kind : FrameType
  logicalLen : Nat
  fragmentCount : Nat
  nextFragmentIndex : Nat
  nextOffset : Nat
  deriving DecidableEq

/-- A request that a task runs. -/
structure ActiveRpc where
  request : QueuedRpc
  cancelRequested : Bool
  deriving DecidableEq

structure RpcResponse where
  requestId : Nat
  kind : FrameType
  payload : Bytes
  deriving DecidableEq

inductive OutboundPriority
  | urgent
  | control
  | bulk
  deriving DecidableEq

inductive OutboundLane
  | control
  | bulk
  deriving DecidableEq

structure ReadyRpc where
  response : RpcResponse
  priority : OutboundPriority
  offset : Nat
  nextFragmentIndex : Nat
  deriving DecidableEq

def Reassembly.isComplete (r : Reassembly) : Bool :=
  r.payload.length = r.logicalLen && r.nextFragmentIndex = r.fragmentCount

def Reassembly.start (fragment : Fragment) : Except Stop Reassembly :=
  if fragment.fragmentIndex ≠ 0 then
    .error (.protocol "fragmented request must start at index zero")
  else .ok ⟨fragment.requestId, fragment.kind, fragment.logicalLen, fragment.fragmentCount, 1,
    fragment.payload⟩

def Reassembly.push (r : Reassembly) (fragment : Fragment) : Except Stop Reassembly :=
  if fragment.requestId ≠ r.requestId || fragment.kind ≠ r.kind ||
      fragment.logicalLen ≠ r.logicalLen || fragment.fragmentCount ≠ r.fragmentCount ||
      fragment.fragmentIndex ≠ r.nextFragmentIndex || fragment.offset ≠ r.payload.length then
    .error (.protocol "fragment sequence mismatch")
  else .ok { r with
    payload := r.payload ++ fragment.payload
    nextFragmentIndex := r.nextFragmentIndex + 1 }

def Reassembly.intoQueued (r : Reassembly) : Except Stop QueuedRpc :=
  if r.isComplete then .ok ⟨r.requestId, r.kind, r.payload⟩
  else .error (.panicked "assertion failed: self.is_complete()")

def RejectedReassembly.isComplete (r : RejectedReassembly) : Bool :=
  r.nextOffset = r.logicalLen && r.nextFragmentIndex = r.fragmentCount

def RejectedReassembly.start (fragment : Fragment) : Except Stop RejectedReassembly :=
  if fragment.fragmentIndex ≠ 0 then
    .error (.protocol "rejected fragmented request must start at index zero")
  else .ok ⟨fragment.kind, fragment.logicalLen, fragment.fragmentCount, 1, fragment.payload.length⟩

def RejectedReassembly.push (r : RejectedReassembly) (fragment : Fragment) :
    Except Stop RejectedReassembly :=
  if fragment.kind ≠ r.kind || fragment.logicalLen ≠ r.logicalLen ||
      fragment.fragmentCount ≠ r.fragmentCount || fragment.fragmentIndex ≠ r.nextFragmentIndex ||
      fragment.offset ≠ r.nextOffset then
    .error (.protocol "rejected fragment sequence mismatch")
  else .ok { r with
    nextFragmentIndex := r.nextFragmentIndex + 1
    nextOffset := r.nextOffset + fragment.payload.length }

def startRejectedReassembly (rejected : List (Nat × RejectedReassembly)) (fragment : Fragment)
    (limit : Nat) : Except Stop (List (Nat × RejectedReassembly)) := do
  let state ← RejectedReassembly.start fragment
  if state.isComplete then return rejected
  if limit ≤ rejected.length || (Assoc.find rejected fragment.requestId).isSome then
    throw (.protocol "rejected reassembly capacity exceeded")
  return Assoc.set rejected fragment.requestId state

/-- The records after a fragment of a rejected request; nothing when it belongs to none. -/
def drainRejectedFragment (rejected : List (Nat × RejectedReassembly)) (fragment : Fragment) :
    Except Stop (Option (List (Nat × RejectedReassembly))) :=
  match Assoc.find rejected fragment.requestId with
  | none => .ok none
  | some state => do
    let state ← state.push fragment
    if state.isComplete then return some (Assoc.erase rejected fragment.requestId)
    return some (Assoc.set rejected fragment.requestId state)

structure Session where
  assembling : List (Nat × Reassembly)
  rejected : List (Nat × RejectedReassembly)
  queued : List QueuedRpc
  active : List (Nat × ActiveRpc)
  controlReady : List ReadyRpc
  bulkReady : List ReadyRpc
  admission : AdmissionLedger
  lastRequestId : Nat
  controlFragmentBurst : Nat
  controlDispatchBurst : Nat
  /-- What was sent, in order. -/
  sent : List Fragment
  deriving DecidableEq

def Session.new (limits : LaneLimits) : Session :=
  ⟨[], [], [], [], [], [], .new limits, 0, 0, 0, []⟩

def nextOutboundLane (controlFront : Option OutboundPriority) (bulkReady controlBurst : Nat) :
    Option OutboundLane :=
  if controlFront = some .urgent ||
      controlFront.isSome && (bulkReady = 0 || controlBurst < maxControlFragmentBurst) then
    some .control
  else if bulkReady ≠ 0 then some .bulk
  else if controlFront.isSome then some .control
  else none

def Session.nextOutbound (s : Session) : Option OutboundLane :=
  nextOutboundLane (s.controlReady.head?.map (·.priority)) s.bulkReady.length s.controlFragmentBurst

def responsePriority (kind : FrameType) (cancelled : Bool) : OutboundPriority :=
  if cancelled then .urgent
  else if kind = .checkResult || kind = .error then .control
  else .bulk

/-- The queue without the next request to run, and the burst after it. -/
def takeNextQueued (queued : List QueuedRpc) (controlBurst : Nat) :
    Option (QueuedRpc × List QueuedRpc × Nat) :=
  let control := queued.findIdx? (·.kind = .checkObjects)
  let bulk := queued.findIdx? (·.kind ≠ .checkObjects)
  let choice := match control, bulk with
    | some control, some bulk =>
      if controlBurst < maxControlFragmentBurst then some (control, controlBurst + 1)
      else some (bulk, 0)
    | some control, none => some (control, min (controlBurst + 1) maxControlFragmentBurst)
    | none, some bulk => some (bulk, 0)
    | none, none => none
  choice.bind fun (position, burst) =>
    queued[position]?.map fun request => (request, queued.eraseIdx position, burst)

/-- Starts requests while there is room; every turn takes one of the `fuel` that are queued. -/
def dispatchLoop : Nat → Session → Except Stop Session
  | 0, s => .ok s
  | fuel + 1, s =>
    if s.active.length < maxRunningRequests then
      match takeNextQueued s.queued s.controlDispatchBurst with
      | none => .ok s
      | some (request, queued, burst) => do
        let admission ← s.admission.markRunning request.requestId
        dispatchLoop fuel { s with
          queued
          controlDispatchBurst := burst
          admission
          active := Assoc.set s.active request.requestId ⟨request, false⟩ }
    else .ok s

def dispatchQueued (s : Session) : Except Stop Session := dispatchLoop s.queued.length s

def takeFirst (p : α → Bool) (l : List α) : Option (α × List α) :=
  (l.find? p).map fun a => (a, l.eraseP p)

def takeQueued (queued : List QueuedRpc) (requestId : Nat) : Option (QueuedRpc × List QueuedRpc) :=
  takeFirst (·.requestId = requestId) queued

def takeReady (ready : List ReadyRpc) (requestId : Nat) : Option (ReadyRpc × List ReadyRpc) :=
  takeFirst (·.response.requestId = requestId) ready

def cancelledReady (requestId : Nat) (message : String) : ReadyRpc :=
  ⟨⟨requestId, .error, encodeError .cancelled 0 message⟩, .urgent, 0, 0⟩

def cancelAssembling (s : Session) (requestId : Nat) : Except Stop Session :=
  match Assoc.find s.assembling requestId with
  | none => .error (.panicked "assembling admission must own a reassembly")
  | some _ => do
    let admission ← s.admission.markSending requestId
    return { s with
      assembling := Assoc.erase s.assembling requestId
      admission
      controlReady := cancelledReady requestId "request cancelled during reassembly" ::
        s.controlReady }

def cancelQueued (s : Session) (requestId : Nat) : Except Stop Session :=
  match takeQueued s.queued requestId with
  | none => .error (.panicked "queued admission must own a queued request")
  | some (_, queued) => do
    let admission ← s.admission.markSending requestId
    return { s with
      queued
      admission
      controlReady := cancelledReady requestId "request cancelled before storage dispatch" ::
        s.controlReady }

def cancelReady (s : Session) (requestId : Nat) : Session :=
  match takeReady s.bulkReady requestId with
  | some (_, bulkReady) => { s with
    bulkReady
    controlReady := cancelledReady requestId "request cancelled during response" :: s.controlReady }
  | none =>
    match takeReady s.controlReady requestId with
    | some (_, controlReady) => { s with
      controlReady := cancelledReady requestId "request cancelled during response" :: controlReady }
    | none => s

def cancelRequest (s : Session) (requestId : Nat) : Except Stop Session :=
  if s.admission.isIn requestId .assembling then cancelAssembling s requestId
  else if s.admission.isIn requestId .queued then cancelQueued s requestId
  else match Assoc.find s.active requestId with
    | some rpc => .ok { s with
      active := Assoc.set s.active requestId { rpc with cancelRequested := true } }
    | none => .ok (cancelReady s requestId)

def responseFragment (lane : NegotiatedLane) (ready : ReadyRpc) (count : Nat) : Fragment :=
  let total := ready.response.payload.length
  let stop := min (ready.offset + lane.maxFragmentPayloadBytes) total
  ⟨ready.response.kind, ready.response.requestId, total, ready.offset, ready.nextFragmentIndex, count,
    (ready.response.payload.take stop).drop ready.offset⟩

/-- The head of a queue after its next fragment, the fragment, and whether it was the last one. -/
def sendReadyHead (lane : NegotiatedLane) (request : ReadyRpc) :
    Except Stop (ReadyRpc × Fragment × Bool) :=
  match lane.wire with
  | .v1 =>
    if request.nextFragmentIndex ≠ 0 then .error (.closed "response already sent")
    else match encodeFrame request.response.kind request.response.requestId request.response.payload
        lane.limits.maxPayloadBytes with
      | none => .error (.closed "response exceeds limit")
      | some frame => .ok ({ request with
        offset := request.response.payload.length, nextFragmentIndex := 1 }, frame, true)
  | .v2 =>
    match fragmentCount request.response.payload.length lane.maxFragmentPayloadBytes with
    | none => .error (.closed "invalid fragment cap")
    | some count =>
      if lane.maxFragments < count then .error (.closed "response exceeds limit")
      else match encodeFragment (responseFragment lane request count) lane.maxFragmentPayloadBytes
          lane.maxFragments with
        | none => .error (.closed "response exceeds limit")
        | some fragment => .ok ({ request with
          offset := min (request.offset + lane.maxFragmentPayloadBytes)
            request.response.payload.length
          nextFragmentIndex := request.nextFragmentIndex + 1 }, fragment,
          request.nextFragmentIndex + 1 = count)

def sendControl (lane : NegotiatedLane) (s : Session) : Except Stop Session :=
  match s.controlReady with
  | [] => .error (.panicked "guarded by scheduler")
  | request :: rest => do
    let (request, fragment, completed) ← sendReadyHead lane request
    let burst := if request.priority = .control then
      min (s.controlFragmentBurst + 1) maxControlFragmentBurst else s.controlFragmentBurst
    let s := { s with sent := s.sent ++ [fragment], controlFragmentBurst := burst }
    if completed then
      let admission ← s.admission.finish request.response.requestId
      dispatchQueued { s with controlReady := rest, admission }
    else return { s with controlReady := request :: rest }

def sendBulk (lane : NegotiatedLane) (s : Session) : Except Stop Session :=
  match s.bulkReady with
  | [] => .error (.panicked "guarded by non-empty queue")
  | request :: rest => do
    let (request, fragment, completed) ← sendReadyHead lane request
    let s := { s with sent := s.sent ++ [fragment], controlFragmentBurst := 0 }
    if completed then
      let admission ← s.admission.finish request.response.requestId
      dispatchQueued { s with bulkReady := rest, admission }
    else return { s with bulkReady := request :: rest }

/-- `send_logical_frame`, for the answers that fit one fragment. -/
def sendLogicalFrame (lane : NegotiatedLane) (kind : FrameType) (requestId : Nat) (payload : Bytes)
    (s : Session) : Except Stop Session :=
  let frame := match lane.wire with
    | .v1 => encodeFrame kind requestId payload lane.limits.maxPayloadBytes
    | .v2 =>
      if fragmentCount payload.length lane.maxFragmentPayloadBytes = some 1 then
        encodeFragment ⟨kind, requestId, payload.length, 0, 0, 1, payload⟩
          lane.maxFragmentPayloadBytes lane.maxFragments
      else none
  match frame with
  | none => .error (.closed "frame exceeds limit")
  | some frame => .ok { s with sent := s.sent ++ [frame] }

def sendBusy (lane : NegotiatedLane) (requestId : Nat) (s : Session) : Except Stop Session :=
  sendLogicalFrame lane .error requestId (encodeError .busy busyRetryAfterMs "data lane busy") s

def rpcReservationBytes (kind : FrameType) (requestBytes maxPayloadBytes : Nat) : Option Nat :=
  match kind with
  | .getPack => some (max requestBytes maxPayloadBytes)
  | .checkObjects => some (max requestBytes (errorHeaderBytes + maxErrorMessageBytes))
  | .putPack => some (max requestBytes (errorHeaderBytes + maxErrorMessageBytes))
  | _ => none

/-- What a message opens to. -/
inductive Incoming
  | obw1 (kind : FrameType) (requestId : Nat) (payload : Bytes)
  | obw2 (fragment : Fragment)
  | malformed
  deriving DecidableEq

/-- A request in one frame; `memory` says whether the process had room for it. -/
def receiveFrame (lane : NegotiatedLane) (s : Session) (kind : FrameType) (requestId : Nat)
    (payload : Bytes) (memory : Bool) : Except Stop Session :=
  if lane.limits.maxPayloadBytes < payload.length then .error (.protocol "malformed OBW1 frame")
  else if kind = .cancel then
    if payload ≠ [] || requestId = 0 then .error (.protocol "malformed cancel")
    else cancelRequest s requestId
  else if !isRequestKind kind || requestId ≤ s.lastRequestId then
    .error (.protocol "invalid or reused request id")
  else
    let s := { s with lastRequestId := requestId }
    match rpcReservationBytes kind payload.length lane.limits.maxPayloadBytes with
    | none => .error (.protocol "no reservation")
    | some reservedBytes =>
      match if memory then s.admission.admitRequest requestId reservedBytes .queued else none with
      | none => sendBusy lane requestId s
      | some admission =>
        dispatchQueued { s with admission, queued := s.queued ++ [⟨requestId, kind, payload⟩] }

/-- The first fragment of a request that is not known yet. -/
def receiveFirst (lane : NegotiatedLane) (s : Session) (fragment : Fragment) (memory : Bool) :
    Except Stop Session :=
  if !isRequestKind fragment.kind || fragment.fragmentIndex ≠ 0 ||
      fragment.requestId ≤ s.lastRequestId then
    .error (.protocol "invalid, gapped, or reused OBW2 request")
  else
    let s := { s with lastRequestId := fragment.requestId }
    match rpcReservationBytes fragment.kind fragment.logicalLen lane.limits.maxPayloadBytes with
    | none => .error (.protocol "no reservation")
    | some reservedBytes =>
      match if memory then s.admission.admitRequest fragment.requestId reservedBytes .assembling
        else none with
      | none => do
        let rejected ← startRejectedReassembly s.rejected fragment
          (min lane.limits.maxInflightRequests maxInflightRequests)
        sendBusy lane fragment.requestId { s with rejected }
      | some admission => do
        let reassembly ← Reassembly.start fragment
        if reassembly.isComplete then
          let admission ← admission.markQueued fragment.requestId
          let request ← reassembly.intoQueued
          dispatchQueued { s with admission, queued := s.queued ++ [request] }
        else
          dispatchQueued { s with
            admission, assembling := Assoc.set s.assembling fragment.requestId reassembly }

def receiveNext (s : Session) (fragment : Fragment) (reassembly : Reassembly) :
    Except Stop Session := do
  let reassembly ← reassembly.push fragment
  if reassembly.isComplete then
    let request ← reassembly.intoQueued
    let admission ← s.admission.markQueued fragment.requestId
    dispatchQueued { s with
      assembling := Assoc.erase s.assembling fragment.requestId
      admission
      queued := s.queued ++ [request] }
  else
    dispatchQueued { s with assembling := Assoc.set s.assembling fragment.requestId reassembly }

def receiveFragment (lane : NegotiatedLane) (s : Session) (fragment : Fragment) (memory : Bool) :
    Except Stop Session :=
  if !acceptsFragment fragment lane.limits.maxPayloadBytes lane.maxFragmentPayloadBytes
      lane.maxFragments then .error (.protocol "malformed OBW2 fragment")
  else if fragment.kind = .cancel then
    if fragment.logicalLen ≠ 0 || fragment.requestId = 0 then .error (.protocol "malformed cancel")
    else if (Assoc.find s.rejected fragment.requestId).isSome then
      .ok { s with rejected := Assoc.erase s.rejected fragment.requestId }
    else cancelRequest s fragment.requestId
  else do
    match ← drainRejectedFragment s.rejected fragment with
    | some rejected => return { s with rejected }
    | none =>
      match Assoc.find s.assembling fragment.requestId with
      | some reassembly => receiveNext s fragment reassembly
      | none => receiveFirst lane s fragment memory

def receive (lane : NegotiatedLane) (s : Session) (message : Incoming) (memory : Bool) :
    Except Stop Session :=
  match message, lane.wire with
  | .obw1 kind requestId payload, .v1 => receiveFrame lane s kind requestId payload memory
  | .obw2 fragment, .v2 => receiveFragment lane s fragment memory
  | _, _ => .error (.protocol "malformed frame")

inductive ServerError
  | badRequest
  | payloadTooLarge
  | serviceUnavailable
  | other
  deriving DecidableEq

def errorResponse (requestId : Nat) (error : ServerError) : RpcResponse :=
  let payload := match error with
    | .badRequest => encodeError .invalidRequest 0 "invalid data RPC"
    | .payloadTooLarge => encodeError .invalidRequest 0 "invalid data RPC"
    | .serviceUnavailable => encodeError .busy busyRetryAfterMs "storage busy"
    | .other => encodeError .internal 0 "data RPC failed"
  ⟨requestId, .error, payload⟩

def resultKind : FrameType → FrameType
  | .checkObjects => .checkResult
  | .putPack => .putAck
  | _ => .getResult

/-- `execute_rpc`, for the result of the handler. -/
def executeRpc (request : QueuedRpc) (result : Except ServerError Bytes) (maxPayloadBytes : Nat) :
    RpcResponse :=
  match result with
  | .ok payload =>
    if payload.length ≤ maxPayloadBytes then ⟨request.requestId, resultKind request.kind, payload⟩
    else ⟨request.requestId, .error, encodeError .internal 0 "response exceeds frame limit"⟩
  | .error error => errorResponse request.requestId error

def honorCancel (response : RpcResponse) (cancelRequested : Bool) : RpcResponse :=
  if cancelRequested then
    { response with kind := .error, payload := encodeError .cancelled 0 "request cancelled" }
  else response

def complete (lane : NegotiatedLane) (s : Session) (requestId : Nat)
    (result : Except ServerError Bytes) : Except Stop Session :=
  match Assoc.find s.active requestId with
  | none => .ok s
  | some rpc => do
    let response := honorCancel (executeRpc rpc.request result lane.limits.maxPayloadBytes)
      rpc.cancelRequested
    let admission ← s.admission.markSending response.requestId
    let ready : ReadyRpc := ⟨response, responsePriority response.kind rpc.cancelRequested, 0, 0⟩
    let s := { s with active := Assoc.erase s.active requestId, admission }
    match ready.priority with
    | .urgent => return { s with controlReady := ready :: s.controlReady }
    | .control => return { s with controlReady := s.controlReady ++ [ready] }
    | .bulk => return { s with bulkReady := s.bulkReady ++ [ready] }

inductive Event
  | send
  | receive (message : Incoming) (memory : Bool)
  | complete (requestId : Nat) (result : Except ServerError Bytes)
  | hangUp

def Session.step (lane : NegotiatedLane) (s : Session) : Event → Except Stop Session
  | .send =>
    match s.nextOutbound with
    | some .control => sendControl lane s
    | some .bulk => sendBulk lane s
    | none => .ok s
  | .receive message memory => DataLane.receive lane s message memory
  | .complete requestId result => DataLane.complete lane s requestId result
  | .hangUp => .error (.closed "session closed")

def Session.run (lane : NegotiatedLane) (s : Session) : List Event → Except Stop Session
  | [] => .ok s
  | event :: events => do
    let s ← s.step lane event
    s.run lane events

end Obsetync.DataLane
