import Obsetync.DataLane.Frames
import Obsetync.Assoc

/-! The sending side of the data lane: one socket of the plugin, from its opening on. -/

namespace Obsetync.DataLane.Plugin
open Wire

def maxCancelledRequests : Nat := 64
def maxV2ControlFragmentBurst : Nat := 4
def urgentFileMaxPayloadBytes : Nat := 64 * 1024
def transportErrorPayloadAllowanceBytes : Nat := 1024
def maxSafeInteger : Nat := 2 ^ 53 - 1

inductive SchedulingLane
  | control
  | urgentFile
  | bulk
  deriving DecidableEq

/-- What a caller asks for. -/
structure Request where
  kind : FrameType
  payload : Bytes
  expectedType : FrameType
  urgent : Bool
  maxResponseBytes : Option Nat
  deriving DecidableEq

/-- `V2OutboundRequest`; an `OBW1` request is sent as its only fragment. -/
structure Outbound where
  requestId : Nat
  kind : FrameType
  payload : Bytes
  schedulingLane : SchedulingLane
  fragmentCount : Nat
  nextFragmentIndex : Nat
  deriving DecidableEq

structure ResponseAssembly where
  kind : FrameType
  logicalLength : Nat
  fragmentCount : Nat
  nextFragmentIndex : Nat
  payload : Bytes
  deriving DecidableEq

structure PendingRequest where
  expectedType : FrameType
  payloadBytes : Nat
  maxResponseBytes : Nat
  sent : Bool
  sealing : Bool
  response : Option ResponseAssembly
  deriving DecidableEq

structure CancelledRequest where
  expectedType : FrameType
  maxResponseBytes : Nat
  response : Option ResponseAssembly
  deriving DecidableEq

/-- A link of `txChain`. -/
inductive Task
  | hello (payload : Bytes)
  | request (request : Outbound)
  | pump
  | drain
  deriving DecidableEq

/-- What follows a drain of the control frames. -/
inductive Resume
  | drain
  | request (request : Outbound)
  | pump
  | settled
  deriving DecidableEq

/-- What the running link of `txChain` awaits. -/
inductive Point
  | idle
  | sealingHello (frame : Fragment) (seq : Nat)
  | sealingCancel (requestId : Nat) (frame : Fragment) (seq : Nat) (resume : Resume)
  | drained (resume : Resume)
  | buffering (request : Outbound)
  | sealing (request : Outbound) (frame : Fragment) (seq : Nat)
  | yielding
  | ended
  deriving DecidableEq

structure Lane where
  /-- `this.socket === socket`. -/
  current : Bool
  /-- `socket.readyState === SOCKET_OPEN`. -/
  isOpen : Bool
  ready : Bool
  pending : List (Nat × PendingRequest)
  cancelled : List (Nat × CancelledRequest)
  activeRequests : Nat
  activeBytes : Nat
  /-- Requests that have acquired credit and have no id yet. -/
  credited : List Request
  nextRequestId : Nat
  txChain : List Task
  controlFrames : List Nat
  v2ControlRequests : List Outbound
  v2BulkRequests : List Outbound
  /-- `v2PumpSocket === socket`. -/
  pumping : Bool
  v2ControlBurst : Nat
  point : Point
  /-- What was given to `sealBytes`; the sequence number of a frame is its index. -/
  sealed : List Fragment
  /-- What was sent, with sequence numbers. -/
  sent : List (Fragment × Nat)
  deriving DecidableEq

def Lane.opened (nextRequestId : Nat) (hello : Bytes) : Lane where
  current := true
  isOpen := true
  ready := false
  pending := []
  cancelled := []
  activeRequests := 0
  activeBytes := 0
  credited := []
  nextRequestId := nextRequestId
  txChain := [.hello hello]
  controlFrames := []
  v2ControlRequests := []
  v2BulkRequests := []
  pumping := false
  v2ControlBurst := 0
  point := .idle
  sealed := []
  sent := []

def Lane.isPending (s : Lane) (requestId : Nat) : Bool := (Assoc.find s.pending requestId).isSome

def Lane.isCancelled (s : Lane) (requestId : Nat) : Bool :=
  (Assoc.find s.cancelled requestId).isSome

def Lane.usable (s : Lane) : Bool := s.current && s.isOpen

def failCurrent (s : Lane) : Lane :=
  if !s.current then s
  else { s with
    current := false
    isOpen := false
    ready := false
    v2ControlRequests := []
    v2BulkRequests := []
    v2ControlBurst := 0
    pending := []
    cancelled := []
    controlFrames := []
    activeRequests := 0
    activeBytes := 0 }

def throwTask (s : Lane) (inPump : Bool) : Lane :=
  { failCurrent s with point := if inPump then .ended else .idle }

def releaseCredit (s : Lane) (bytes : Nat) : Lane :=
  { s with activeRequests := s.activeRequests - 1, activeBytes := s.activeBytes - bytes }

def cancelFrame (requestId : Nat) : Fragment := ⟨.cancel, requestId, 0, 0, 0, 1, []⟩

/-- `drainControlFrames`, up to the next frame to seal. -/
def drainControlFrames (s : Lane) (resume : Resume) : List Nat → Lane
  | [] => { s with controlFrames := [], point := .drained resume }
  | requestId :: controls =>
    if !s.usable || !s.isCancelled requestId then drainControlFrames s resume controls
    else { s with
      controlFrames := controls
      sealed := s.sealed ++ [cancelFrame requestId]
      point := .sealingCancel requestId (cancelFrame requestId) s.sealed.length resume }

def cancelSealed (s : Lane) (requestId : Nat) (frame : Fragment) (seq : Nat) (resume : Resume) :
    Lane :=
  if !s.usable || !s.isCancelled requestId then drainControlFrames s resume s.controlFrames
  else drainControlFrames { s with sent := s.sent ++ [(frame, seq)] } resume s.controlFrames

def scheduleV2Pump (s : Lane) : Lane :=
  if s.pumping then s else { s with pumping := true, txChain := s.txChain ++ [.pump] }

/-- The selected request, or the unstarted one with the least id before it. -/
def oldestUnstarted (selected : Outbound) (queued : List Outbound) : Outbound :=
  queued.foldl (fun first request =>
    if request.nextFragmentIndex = 0 && request.requestId < first.requestId then request else first)
    selected

def nextV2Request (s : Lane) : Option (Outbound × Lane) :=
  let controlPreferred := s.v2ControlRequests ≠ [] &&
    (s.v2BulkRequests = [] || s.v2ControlBurst < maxV2ControlFragmentBurst)
  let selectedQueue := if controlPreferred then s.v2ControlRequests
    else if s.v2BulkRequests ≠ [] then s.v2BulkRequests
    else s.v2ControlRequests
  selectedQueue.head?.map fun selected =>
    let request := if selected.nextFragmentIndex = 0 then
        oldestUnstarted selected (s.v2ControlRequests ++ s.v2BulkRequests)
      else selected
    (request, { s with
      v2ControlRequests := s.v2ControlRequests.erase request
      v2BulkRequests := s.v2BulkRequests.erase request
      v2ControlBurst := if request.schedulingLane ≠ .bulk then
        min maxV2ControlFragmentBurst (s.v2ControlBurst + 1) else 0 })

/-- The head of the loop of `runV2Pump`. -/
def pumpTop (s : Lane) : Lane :=
  if !s.usable then throwTask s true else drainControlFrames s .pump s.controlFrames

def pumpNext (s : Lane) : Lane :=
  match nextV2Request s with
  | none => { s with point := .ended }
  | some (request, s) =>
    if !s.isPending request.requestId then pumpTop s else { s with point := .buffering request }

def pumpEnded (s : Lane) : Lane :=
  let s := { s with pumping := false, point := .idle }
  if s.current && (s.v2ControlRequests ≠ [] || s.v2BulkRequests ≠ []) then scheduleV2Pump s else s

/-- `validateV2FragmentLimits`. -/
def validFragmentLimits (lane : NegotiatedLane) : Bool :=
  lane.limits.maxPayloadBytes ≤ maxFragmentPayloadBytes * maxFragments &&
    1 ≤ lane.maxFragmentPayloadBytes && lane.maxFragmentPayloadBytes ≤ maxFragmentPayloadBytes &&
    1 ≤ lane.maxFragments && lane.maxFragments ≤ maxFragments &&
    lane.limits.maxPayloadBytes ≤ lane.maxFragmentPayloadBytes * lane.maxFragments

/-- `encodeWsDataFragment`, or nothing when it throws. -/
def encodeWsDataFragment (lane : NegotiatedLane) (kind : FrameType) (requestId : Nat)
    (payload : Bytes) (fragmentIndex : Nat) : Option Fragment :=
  if !validFragmentLimits lane || lane.limits.maxPayloadBytes < payload.length ||
      2 ^ 32 ≤ payload.length then none
  else (fragmentCount payload.length lane.maxFragmentPayloadBytes).bind fun count =>
    if lane.maxFragments < count || count ≤ fragmentIndex then none
    else
      let offset := fragmentIndex * lane.maxFragmentPayloadBytes
      let stop := min payload.length (offset + lane.maxFragmentPayloadBytes)
      some ⟨kind, requestId, payload.length, offset, fragmentIndex, count,
        (payload.take stop).drop offset⟩

def encodeNext (lane : NegotiatedLane) (request : Outbound) : Option Fragment :=
  match lane.wire with
  | .v1 => encodeFrame request.kind request.requestId request.payload lane.limits.maxPayloadBytes
  | .v2 => encodeWsDataFragment lane request.kind request.requestId request.payload
    request.nextFragmentIndex

def sealNext (lane : NegotiatedLane) (s : Lane) (request : Outbound) : Lane :=
  match encodeNext lane request with
  | none => throwTask s (lane.wire = .v2)
  | some frame => { s with
    pending := Assoc.adjust s.pending request.requestId fun pending => { pending with sealing := true }
    sealed := s.sealed ++ [frame]
    point := .sealing request frame s.sealed.length }

/-- `waitForBufferedAmount` has returned. -/
def buffered (lane : NegotiatedLane) (s : Lane) (request : Outbound) : Lane :=
  match lane.wire with
  | .v1 =>
    if !s.current || !s.isPending request.requestId then { s with point := .idle }
    else sealNext lane s request
  | .v2 =>
    if !s.isPending request.requestId then drainControlFrames s .settled s.controlFrames
    else sealNext lane s request

def requeue (s : Lane) (request : Outbound) : Lane :=
  if request.nextFragmentIndex = request.fragmentCount then s
  else if request.kind = .checkObjects then
    { s with v2ControlRequests := s.v2ControlRequests ++ [request] }
  else { s with v2BulkRequests := s.v2BulkRequests ++ [request] }

def sendCancelledSealedBoundary (s : Lane) (requestId : Nat) (frame : Fragment) (seq : Nat) : Lane :=
  if !s.isCancelled requestId || !s.usable then s else { s with sent := s.sent ++ [(frame, seq)] }

def frameSealed (lane : NegotiatedLane) (s : Lane) (request : Outbound) (frame : Fragment) (seq : Nat) :
    Lane :=
  let s := { s with
    pending := Assoc.adjust s.pending request.requestId fun pending =>
      { pending with sealing := false } }
  if !s.isPending request.requestId then
    let s := sendCancelledSealedBoundary s request.requestId frame seq
    drainControlFrames s .settled s.controlFrames
  else if !s.usable then throwTask s (lane.wire = .v2)
  else
    let s := { s with
      pending := Assoc.adjust s.pending request.requestId fun pending => { pending with sent := true }
      sent := s.sent ++ [(frame, seq)] }
    match lane.wire with
    | .v1 => { s with point := .idle }
    | .v2 => { requeue s { request with nextFragmentIndex := request.nextFragmentIndex + 1 } with
      point := .yielding }

/-- A drain of the control frames has returned. -/
def afterDrain (lane : NegotiatedLane) (s : Lane) : Resume → Lane
  | .drain => { s with point := .idle }
  | .request request =>
    if !s.current || !s.isPending request.requestId then { s with point := .idle }
    else { s with point := .buffering request }
  | .pump => pumpNext s
  | .settled =>
    match lane.wire with
    | .v1 => { s with point := .idle }
    | .v2 => pumpTop s

def startTask (s : Lane) : Task → Lane
  | .hello payload =>
    let frame : Fragment := ⟨.hello, 0, payload.length, 0, 0, 1, payload⟩
    { s with sealed := s.sealed ++ [frame], point := .sealingHello frame s.sealed.length }
  | .request request => drainControlFrames s (.request request) s.controlFrames
  | .pump => pumpTop s
  | .drain => if !s.current then { s with point := .idle } else drainControlFrames s .drain s.controlFrames

/-- What the running link of `txChain` awaits has come, or its next link runs. -/
def resume (lane : NegotiatedLane) (s : Lane) : Lane :=
  match s.point with
  | .idle =>
    match s.txChain with
    | [] => s
    | task :: tasks => startTask { s with txChain := tasks } task
  | .sealingHello frame seq =>
    if !s.usable then throwTask s false
    else { s with sent := s.sent ++ [(frame, seq)], point := .idle }
  | .sealingCancel requestId frame seq next => cancelSealed s requestId frame seq next
  | .drained next => afterDrain lane s next
  | .buffering request => buffered lane s request
  | .sealing request frame seq => frameSealed lane s request frame seq
  | .yielding => pumpTop s
  | .ended => pumpEnded s

def Resume.inPump (lane : NegotiatedLane) : Resume → Bool
  | .drain => false
  | .request _ => false
  | .pump => true
  | .settled => lane.wire = .v2

/-- What the running link of `txChain` awaits has failed. -/
def reject (lane : NegotiatedLane) (s : Lane) : Lane :=
  match s.point with
  | .sealingHello _ _ => throwTask s false
  | .sealingCancel _ _ _ next => throwTask s (next.inPump lane)
  | .sealing _ _ _ => throwTask s (lane.wire = .v2)
  | .buffering request =>
    if s.isPending request.requestId && !s.usable then throwTask s (lane.wire = .v2) else s
  | _ => s

def schedulingLane (request : Request) : SchedulingLane :=
  if request.kind = .checkObjects then .control
  else if request.urgent then .urgentFile
  else .bulk

/-- What `request` checks before it waits for credit. -/
def admissible (lane : NegotiatedLane) (request : Request) : Bool :=
  isRequestKind request.kind &&
    (!request.urgent || request.kind = .putPack && request.payload.length ≤ urgentFileMaxPayloadBytes) &&
    request.payload.length ≤ lane.limits.maxPayloadBytes

/-- `acquireCredit`, for one value of the local limit. What it returns to runs after a drain that has
returned goes on. -/
def acquireCredit (lane : NegotiatedLane) (s : Lane) (request : Request) (configuredLimit : Nat) :
    Lane :=
  let requestLimit := max 1 (min lane.limits.maxInflightRequests configuredLimit)
  let returning := match s.point with
    | .drained _ => true
    | _ => false
  if s.ready && !returning && admissible lane request && s.activeRequests < requestLimit &&
      s.activeBytes + request.payload.length ≤ lane.limits.maxInflightBytes then
    { s with
      activeRequests := s.activeRequests + 1
      activeBytes := s.activeBytes + request.payload.length
      credited := s.credited ++ [request] }
  else s

def responseCap (lane : NegotiatedLane) (request : Request) : Nat :=
  min lane.limits.maxPayloadBytes (max transportErrorPayloadAllowanceBytes
    (request.maxResponseBytes.getD lane.limits.maxPayloadBytes))

def enqueue (lane : NegotiatedLane) (s : Lane) (request : Outbound) : Lane :=
  match lane.wire with
  | .v1 => { s with txChain := s.txChain ++ [.request request] }
  | .v2 =>
    scheduleV2Pump (if request.schedulingLane ≠ .bulk then
        { s with v2ControlRequests := s.v2ControlRequests ++ [request] }
      else { s with v2BulkRequests := s.v2BulkRequests ++ [request] })

/-- `request`, from its credit on. -/
def start (lane : NegotiatedLane) (s : Lane) (request : Request) : Lane :=
  if request ∉ s.credited then s
  else
    let s := { s with credited := s.credited.erase request }
    if !s.usable || !s.ready then releaseCredit s request.payload.length
    else if maxSafeInteger < s.nextRequestId then
      failCurrent (releaseCredit s request.payload.length)
    else
      let requestId := s.nextRequestId
      let count := match lane.wire with
        | .v1 => 1
        | .v2 => (fragmentCount request.payload.length lane.maxFragmentPayloadBytes).getD 0
      enqueue lane { s with
        nextRequestId := requestId + 1
        pending := Assoc.set s.pending requestId
          ⟨request.expectedType, request.payload.length, responseCap lane request, false, false, none⟩ }
        ⟨requestId, request.kind, request.payload, schedulingLane request, count, 0⟩

def cancelPending (s : Lane) (requestId : Nat) : Lane :=
  match Assoc.find s.pending requestId with
  | none => s
  | some pending =>
    let s := releaseCredit { s with pending := Assoc.erase s.pending requestId } pending.payloadBytes
    if (pending.sent || pending.sealing) && s.usable then
      if maxCancelledRequests ≤ s.cancelled.length then failCurrent s
      else { s with
        cancelled := Assoc.set s.cancelled requestId
          ⟨pending.expectedType, pending.maxResponseBytes, pending.response⟩
        controlFrames := s.controlFrames ++ [requestId]
        txChain := s.txChain ++ [.drain] }
    else s

/-- Whether `decodeWsDataError` returns. -/
def decodesError (payload : Bytes) : Bool :=
  errorHeaderBytes ≤ payload.length && payload.take 4 = asBytes "OWE1" &&
    1 ≤ ofLe ((payload.drop 4).take 2) && ofLe ((payload.drop 4).take 2) ≤ 4 &&
    ofLe ((payload.drop 6).take 2) = 0 && ofLe ((payload.drop 12).take 2) ≤ maxErrorMessageBytes &&
    payload.length = errorHeaderBytes + ofLe ((payload.drop 12).take 2) &&
    ByteArray.validateUTF8 ⟨(payload.drop errorHeaderBytes).toArray⟩

/-- `handleResponse`, or nothing when it throws. -/
def handleResponse (s : Lane) (kind : FrameType) (requestId : Nat) (payload : Bytes) : Option Lane :=
  if requestId = 0 then none
  else match Assoc.find s.pending requestId with
    | some pending =>
      if pending.maxResponseBytes < payload.length || kind = .error && !decodesError payload ||
          kind ≠ .error && kind ≠ pending.expectedType then none
      else some (releaseCredit { s with pending := Assoc.erase s.pending requestId }
        pending.payloadBytes)
    | none =>
      match Assoc.find s.cancelled requestId with
      | none => none
      | some cancelled =>
        if cancelled.maxResponseBytes < payload.length || kind = .error && !decodesError payload ||
            kind ≠ .error && kind ≠ cancelled.expectedType then none
        else some { s with cancelled := Assoc.erase s.cancelled requestId }

/-- The response of a request after a fragment of it, or nothing when it is out of place. -/
def assemble (response : Option ResponseAssembly) (isCancelled : Bool) (fragment : Fragment) :
    Option ResponseAssembly :=
  let started := if fragment.fragmentIndex ≠ 0 then response
    else
      let restarted := response.all fun response =>
        isCancelled && fragment.kind = .error && response.kind ≠ .error
      if restarted then some ⟨fragment.kind, fragment.logicalLen, fragment.fragmentCount, 0,
        List.replicate fragment.logicalLen 0⟩
      else none
  started.bind fun response =>
    if response.kind ≠ fragment.kind || response.logicalLength ≠ fragment.logicalLen ||
        response.fragmentCount ≠ fragment.fragmentCount ||
        response.nextFragmentIndex ≠ fragment.fragmentIndex ||
        response.payload.length < fragment.offset + fragment.payload.length then none
    else some { response with
      nextFragmentIndex := response.nextFragmentIndex + 1
      payload := response.payload.take fragment.offset ++ fragment.payload ++
        response.payload.drop (fragment.offset + fragment.payload.length) }

def setResponse (s : Lane) (requestId : Nat) (response : Option ResponseAssembly) : Lane :=
  if s.isPending requestId then
    { s with pending := Assoc.adjust s.pending requestId fun pending => { pending with response } }
  else
    { s with
      cancelled := Assoc.adjust s.cancelled requestId fun cancelled => { cancelled with response } }

/-- The byte bound, the expected type and the response of a request that waits for one. -/
def owner (s : Lane) (requestId : Nat) : Option (Nat × FrameType × Option ResponseAssembly) :=
  match Assoc.find s.pending requestId with
  | some pending => some (pending.maxResponseBytes, pending.expectedType, pending.response)
  | none => (Assoc.find s.cancelled requestId).map fun cancelled =>
    (cancelled.maxResponseBytes, cancelled.expectedType, cancelled.response)

/-- `handleResponseFragment`, or nothing when it throws. -/
def handleResponseFragment (s : Lane) (fragment : Fragment) : Option Lane :=
  if fragment.requestId = 0 then none
  else (owner s fragment.requestId).bind fun (maxResponseBytes, expectedType, response) =>
    if maxResponseBytes < fragment.logicalLen ||
        fragment.kind ≠ .error && fragment.kind ≠ expectedType then none
    else (assemble response (s.isCancelled fragment.requestId) fragment).bind fun response =>
      if response.nextFragmentIndex ≠ response.fragmentCount then
        some (setResponse s fragment.requestId (some response))
      else handleResponse (setResponse s fragment.requestId none) response.kind fragment.requestId
        response.payload

/-- A message of the server after it was opened and decoded. -/
def respond (lane : NegotiatedLane) (s : Lane) (fragment : Fragment) : Lane :=
  if !s.current then s
  else
    let handled := if !s.ready then none
      else match lane.wire with
        | .v1 => handleResponse s fragment.kind fragment.requestId fragment.payload
        | .v2 => handleResponseFragment s fragment
    handled.getD (failCurrent s)

inductive Event
  | negotiated
  | acquire (request : Request) (configuredLimit : Nat)
  | start (request : Request)
  | abort (requestId : Nat)
  | respond (fragment : Fragment)
  | resume
  | reject
  | closing
  | fail
  deriving DecidableEq

def Lane.step (lane : NegotiatedLane) (s : Lane) : Event → Lane
  | .negotiated => if s.current then { s with ready := true } else s
  | .acquire request configuredLimit => acquireCredit lane s request configuredLimit
  | .start request => Plugin.start lane s request
  | .abort requestId => cancelPending s requestId
  | .respond fragment => Plugin.respond lane s fragment
  | .resume => Plugin.resume lane s
  | .reject => Plugin.reject lane s
  | .closing => { s with isOpen := false }
  | .fail => failCurrent s

def Lane.run (lane : NegotiatedLane) (s : Lane) (events : List Event) : Lane :=
  events.foldl (Lane.step lane) s

end Obsetync.DataLane.Plugin
