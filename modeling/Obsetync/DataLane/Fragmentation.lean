import Obsetync.DataLane.FragmentCodec

namespace Obsetync.DataLane
open Fallible List

section Lane

variable (lane : NegotiatedLane)

/-- The messages of a response, as `send_ready_head` encodes them one by one. -/
def cutResponse (response : RpcResponse) : Except ProtocolError (List Bytes) :=
  (responseFragments lane response).mapM fun f =>
    encodeFragmentBytes f lane.maxFragmentPayloadBytes lane.maxFragments

def cutRequest (request : RpcResponse) : Option (List Bytes) :=
  (fragmentCount request.payload.length lane.maxFragmentPayloadBytes).bind fun count =>
    (List.range count).mapM
      (encodeWsDataFragmentBytes lane request.kind request.requestId request.payload)

/-- `decode_fragment` under the limits of the lane. -/
def decodeOn (input : Bytes) : Option Fragment :=
  (decodeFragment input lane.limits.maxPayloadBytes lane.maxFragmentPayloadBytes
    lane.maxFragments).toOption

/-- The rest of the messages of one request of the server's reassembly; nothing when one is refused
or the request does not end with the last. -/
def Reassembly.collect (r : Reassembly) : List Bytes → Option RpcResponse
  | [] => if r.isComplete then some ⟨r.requestId, r.kind, r.payload⟩ else none
  | input :: inputs =>
    if r.isComplete then none
    else (decodeOn lane input).bind fun f => (r.push f).toOption.bind fun r => r.collect inputs

def reassemble : List Bytes → Option RpcResponse
  | [] => none
  | input :: inputs => (decodeOn lane input).bind fun f =>
    (Reassembly.start f).toOption.bind fun r => r.collect lane inputs

/-- The same for a response that the plugin collects. -/
def wsCollect (requestId : Nat) : Option Plugin.ResponseAssembly → List Bytes → Option RpcResponse
  | _, [] => none
  | response, input :: inputs => (decodeWsDataFragment lane input).toOption.bind fun f =>
    if f.requestId ≠ requestId then none
    else (Plugin.assemble response false f).bind fun response =>
      if response.nextFragmentIndex = response.fragmentCount then
        if inputs = [] then some ⟨requestId, response.kind, response.payload⟩ else none
      else wsCollect requestId (some response) inputs

end Lane

/-- What negotiation makes of the limits of an `OBW2` lane. -/
structure LaneV2 (lane : NegotiatedLane) : Prop where
  ok : LaneOk lane
  wire : lane.wire = .v2
  valid : Plugin.validFragmentLimits lane = true

variable {lane : NegotiatedLane} {frame : RpcResponse} {f : Fragment} {input : Bytes} {index : Nat}

theorem toOption_eq_some {x : Except ε α} : x.toOption = some a ↔ x = .ok a := by
  cases x with
  | error e => exact iff_of_false nofun nofun
  | ok b =>
    rw [Except.ok.injEq]
    exact Option.some_inj

theorem mapM_eq_some_map (l : List α) (heq : ∀ a ∈ l, g a = some (h a)) :
    l.mapM g = some (l.map h) := by
  induction l with
  | nil => rfl
  | cons a l ih =>
    rw [mapM_cons, heq a mem_cons_self, ih fun b hb => heq b (mem_cons_of_mem _ hb)]
    rfl

theorem negotiateLane_v2 (h : negotiateLane requested = some lane) (hwire : lane.wire = .v2) :
    LaneV2 lane := by
  have hok := negotiateLane_ok h
  have hpart : lane.maxFragmentPayloadBytes ≤ maxFragmentPayloadBytes := by
    rw [negotiateLane] at h
    split at h
    · obtain ⟨limits, -, rfl⟩ := Option.map_eq_some_iff.1 h
      cases hwire
    · split at h
      · cases h
      · obtain ⟨limits, -, rfl⟩ := Option.map_eq_some_iff.1 h
        exact min_le_right _ _
  have hparts : 1 ≤ lane.maxFragments := by
    apply Nat.pos_of_ne_zero
    intro hzero
    have hlow := hok.payload_ge
    have hhigh := hok.representable hwire
    rw [hzero, Nat.mul_zero] at hhigh
    omega
  refine ⟨hok, hwire, ?_⟩
  simp only [Plugin.validFragmentLimits, Bool.and_eq_true, decide_eq_true_eq]
  exact ⟨⟨⟨⟨⟨hok.payload_le, (by decide : 1 ≤ 1024).trans (hok.fragment_ge hwire)⟩, hpart⟩, hparts⟩,
    hok.fragments_le hwire⟩, hok.representable hwire⟩

namespace LaneV2

variable (hl : LaneV2 lane)
include hl

theorem part_pos : 0 < lane.maxFragmentPayloadBytes :=
  lt_of_lt_of_le (by decide) (hl.ok.fragment_ge hl.wire)

theorem part_le : lane.maxFragmentPayloadBytes ≤ 65536 := by
  have hvalid := hl.valid
  simp only [Plugin.validFragmentLimits, Bool.and_eq_true, decide_eq_true_eq] at hvalid
  exact hvalid.1.1.1.2

theorem offset_le (hindex : f.fragmentIndex < 256 ^ 2) :
    f.fragmentIndex * lane.maxFragmentPayloadBytes ≤ 256 ^ 2 * 65536 :=
  Nat.mul_le_mul hindex.le hl.part_le

theorem decodeOn_eq_some : decodeOn lane input = some f ↔ f.Fits ∧ acceptsFragment f
    lane.limits.maxPayloadBytes lane.maxFragmentPayloadBytes lane.maxFragments = true ∧ input = f.bytes := by
  rw [decodeOn, toOption_eq_some, decodeFragment_eq_ok]
  refine and_congr_right fun hfits => and_congr_right fun _ => and_iff_right ?_
  exact (hl.offset_le hfits.fragmentIndex).trans_lt (by decide)

theorem decodeWs_eq_some : (decodeWsDataFragment lane input).toOption = some f ↔
    f.requestId ≤ maxSafeInteger ∧ decodeOn lane input = some f := by
  rw [toOption_eq_some, decodeWsDataFragment_eq_ok hl.valid, hl.decodeOn_eq_some]
  refine and_congr_right fun _ => and_congr_right fun hfits => and_congr_right fun _ => and_iff_right ?_
  exact (hl.offset_le hfits.fragmentIndex).trans (by decide)

theorem fragmentAt_eq : fragmentAt lane frame index = ⟨frame.kind, frame.requestId, frame.payload.length,
    index * lane.maxFragmentPayloadBytes, index, countOf lane frame,
    (frame.payload.drop (index * lane.maxFragmentPayloadBytes)).take lane.maxFragmentPayloadBytes⟩ := by
  have hpayload (offset part : Nat) : (frame.payload.take (min (offset + part) frame.payload.length)).drop offset =
      (frame.payload.drop offset).take part := by
    rw [← take_take, take_length, drop_take, Nat.add_sub_cancel_left]
  rw [fragmentAt, hl.wire]
  simp only [responseFragment, hpayload]

theorem fragmentCount_eq (frame : RpcResponse) :
    fragmentCount frame.payload.length lane.maxFragmentPayloadBytes = some (countOf lane frame) :=
  fragmentCount_eq_countOf hl.ok hl.wire frame

theorem fragmentAt_accepted (hid : frame.requestId < 256 ^ 8)
    (hpayload : frame.payload.length ≤ lane.limits.maxPayloadBytes) (hindex : index < countOf lane frame) :
    (fragmentAt lane frame index).Fits ∧
      acceptsFragment (fragmentAt lane frame index) frame.payload.length lane.maxFragmentPayloadBytes
        lane.maxFragments = true ∧ countOf lane frame ≤ lane.maxFragments := by
  obtain ⟨hcount, hencode⟩ := encodeFragment_fragmentAt hl.ok hl.wire hpayload hindex
  rw [encodeFragment] at hencode
  split at hencode
  next hok =>
    simp only [Bool.and_eq_true, decide_eq_true_eq] at hok
    obtain ⟨⟨⟨⟨⟨hlogical, hoffset⟩, hlen⟩, hplace⟩, hcounts⟩, haccepts⟩ := hok
    have hlength : (fragmentAt lane frame index).logicalLen = frame.payload.length := by
      rw [hl.fragmentAt_eq]
    rw [hlength] at haccepts
    refine ⟨⟨?_, hlen, hlogical, hoffset, hplace, hcounts⟩, haccepts, hcount⟩
    rwa [requestId_fragmentAt]
  next => exact nomatch hencode

omit hl in
theorem accepts_mono (hle : small ≤ large)
    (h : acceptsFragment f small lane.maxFragmentPayloadBytes lane.maxFragments = true) :
    acceptsFragment f large lane.maxFragmentPayloadBytes lane.maxFragments = true := by
  rw [acceptsFragment_iff] at h ⊢
  exact ⟨h.1.trans hle, h.2⟩

theorem decodeOn_fragmentAt (hid : frame.requestId < 256 ^ 8)
    (hpayload : frame.payload.length ≤ lane.limits.maxPayloadBytes) (hindex : index < countOf lane frame) :
    decodeOn lane (fragmentAt lane frame index).bytes = some (fragmentAt lane frame index) := by
  obtain ⟨hfits, haccepts, -⟩ := hl.fragmentAt_accepted hid hpayload hindex
  exact hl.decodeOn_eq_some.2 ⟨hfits, accepts_mono hpayload haccepts, rfl⟩

theorem encodeFragmentBytes_fragmentAt (hid : frame.requestId < 256 ^ 8)
    (hpayload : frame.payload.length ≤ lane.limits.maxPayloadBytes) (hindex : index < countOf lane frame) :
    encodeFragmentBytes (fragmentAt lane frame index) lane.maxFragmentPayloadBytes lane.maxFragments =
      .ok (fragmentAt lane frame index).bytes := by
  obtain ⟨hfits, haccepts, hcount⟩ := hl.fragmentAt_accepted hid hpayload hindex
  have hlength : (fragmentAt lane frame index).logicalLen = frame.payload.length := by
    rw [hl.fragmentAt_eq]
  have hparts : (fragmentAt lane frame index).fragmentCount = countOf lane frame := by
    rw [hl.fragmentAt_eq]
  have hdecode := decodeFragment_eq_ok.2 ⟨hfits, haccepts,
    (hl.offset_le hfits.fragmentIndex).trans_lt (by decide), rfl⟩
  simp only [encodeFragmentBytes, bind_eq_ok, exists_unit, refuse_eq_ok, pure_eq_ok,
    decide_eq_false_iff_not, Bool.or_eq_false_iff, not_lt, not_le, hlength, hparts]
  refine ⟨hlength ▸ hfits.logicalLen, hfits.offset, hfits.fragmentLen, hfits.fragmentIndex,
    hparts ▸ hfits.fragmentCount, ⟨by omega, hcount⟩, _, hdecode, trivial⟩

theorem encodeWs_fragmentAt (hid : frame.requestId ≤ maxSafeInteger)
    (hpayload : frame.payload.length ≤ lane.limits.maxPayloadBytes) (hindex : index < countOf lane frame) :
    encodeWsDataFragmentBytes lane frame.kind frame.requestId frame.payload index =
      some (fragmentAt lane frame index).bytes := by
  have hcount := (encodeFragment_fragmentAt hl.ok hl.wire hpayload hindex).1
  have hlarge : frame.payload.length < 2 ^ 32 :=
    (hpayload.trans hl.ok.payload_le).trans_lt (by decide)
  have hfragment : Plugin.encodeWsDataFragment lane frame.kind frame.requestId frame.payload index =
      some (fragmentAt lane frame index) := by
    rw [Plugin.encodeWsDataFragment, if_neg, hl.fragmentCount_eq, Option.bind_some, if_neg, fragmentAt, hl.wire]
    · simp only [responseFragment, Nat.min_comm]
    · simp only [Bool.or_eq_true, decide_eq_true_eq, not_or, not_lt, not_le]
      exact ⟨hcount, hindex⟩
    · simp only [hl.valid, Bool.not_true, Bool.false_or, Bool.or_eq_true, decide_eq_true_eq, not_or, not_lt,
        not_le]
      exact ⟨hpayload, hlarge⟩
  rw [encodeWsDataFragmentBytes, if_neg (Nat.not_lt.2 hid), hfragment]
  rfl

theorem cutResponse_eq (hid : frame.requestId < 256 ^ 8)
    (hpayload : frame.payload.length ≤ lane.limits.maxPayloadBytes) :
    cutResponse lane frame = .ok ((responseFragments lane frame).map Fragment.bytes) := by
  rw [cutResponse, mapM_eq_ok, forall₂_map_right_iff, forall₂_same]
  intro f hf
  obtain ⟨index, hindex, rfl⟩ := mem_map.1 hf
  exact hl.encodeFragmentBytes_fragmentAt hid hpayload (mem_range.1 hindex)

theorem cutRequest_eq (hid : frame.requestId ≤ maxSafeInteger)
    (hpayload : frame.payload.length ≤ lane.limits.maxPayloadBytes) :
    cutRequest lane frame = some ((responseFragments lane frame).map Fragment.bytes) := by
  rw [cutRequest, hl.fragmentCount_eq, Option.bind_some, responseFragments, map_map]
  apply mapM_eq_some_map
  intro index hindex
  exact hl.encodeWs_fragmentAt hid hpayload (mem_range.1 hindex)

end LaneV2

def assemblyAt (lane : NegotiatedLane) (frame : RpcResponse) (index : Nat) : Reassembly :=
  ⟨frame.requestId, frame.kind, frame.payload.length, countOf lane frame, index,
    frame.payload.take (index * lane.maxFragmentPayloadBytes)⟩

namespace LaneV2

variable (hl : LaneV2 lane)
include hl

theorem countOf_spec (frame : RpcResponse) : 0 < countOf lane frame ∧
    frame.payload.length ≤ countOf lane frame * lane.maxFragmentPayloadBytes ∧
    ∀ index < countOf lane frame, index * lane.maxFragmentPayloadBytes ≤ frame.payload.length := by
  obtain ⟨count, hcount, hpos, htotal, hstart, -⟩ :=
    @fragmentCount_spec frame.payload.length lane.maxFragmentPayloadBytes hl.part_pos
  rw [hl.fragmentCount_eq] at hcount
  cases hcount
  exact ⟨hpos, htotal, hstart⟩

theorem push_assemblyAt (hindex : index < countOf lane frame) :
    (assemblyAt lane frame index).push (fragmentAt lane frame index) =
      .ok (assemblyAt lane frame (index + 1)) := by
  have hstart := (hl.countOf_spec frame).2.2 index hindex
  rw [hl.fragmentAt_eq, Reassembly.push, if_neg]
  · rw [assemblyAt, assemblyAt, Nat.add_mul, Nat.one_mul, take_add]
  · simp [assemblyAt, length_take, hstart]

theorem isComplete_assemblyAt :
    (assemblyAt lane frame index).isComplete = decide (index = countOf lane frame) := by
  rw [Reassembly.isComplete, assemblyAt]
  by_cases heq : index = countOf lane frame
  · have htotal := (hl.countOf_spec frame).2.1
    simp [heq, length_take, htotal]
  · simp [heq]

theorem collect_fragments (hid : frame.requestId < 256 ^ 8)
    (hpayload : frame.payload.length ≤ lane.limits.maxPayloadBytes) (n : Nat) (hn : n ≤ countOf lane frame) :
    (assemblyAt lane frame (countOf lane frame - n)).collect lane
      (((List.range' (countOf lane frame - n) n).map (fragmentAt lane frame)).map Fragment.bytes) =
      some frame := by
  induction n with
  | zero =>
    have htotal := (hl.countOf_spec frame).2.1
    rw [Nat.sub_zero, range'_zero, map_nil, map_nil, Reassembly.collect,
      hl.isComplete_assemblyAt, if_pos (decide_eq_true rfl), assemblyAt, take_of_length_le htotal]
  | succ n ih =>
    have hindex : countOf lane frame - (n + 1) < countOf lane frame := by omega
    have hnext : countOf lane frame - (n + 1) + 1 = countOf lane frame - n := by omega
    rw [range'_succ, map_cons, map_cons, Reassembly.collect,
      hl.isComplete_assemblyAt, if_neg (by simpa using hindex.ne),
      hl.decodeOn_fragmentAt hid hpayload hindex, Option.bind_some, hl.push_assemblyAt hindex, hnext]
    exact ih (by omega)

theorem reassemble_fragments (hid : frame.requestId < 256 ^ 8)
    (hpayload : frame.payload.length ≤ lane.limits.maxPayloadBytes) :
    reassemble lane ((responseFragments lane frame).map Fragment.bytes) = some frame := by
  obtain ⟨hpos, -, -⟩ := hl.countOf_spec frame
  have hstart : Reassembly.start (fragmentAt lane frame 0) = .ok (assemblyAt lane frame 1) := by
    rw [hl.fragmentAt_eq, Reassembly.start, if_neg (by simp), assemblyAt, Nat.zero_mul, drop_zero,
      Nat.one_mul]
  have hrest := hl.collect_fragments hid hpayload (countOf lane frame - 1) (Nat.sub_le _ _)
  rw [Nat.sub_sub_self hpos] at hrest
  obtain ⟨n, hn⟩ : ∃ n, countOf lane frame = n + 1 := ⟨_, (Nat.sub_add_cancel hpos).symm⟩
  rw [responseFragments, range_eq_range', hn, range'_succ, map_cons, map_cons, reassemble,
    hl.decodeOn_fragmentAt hid hpayload hpos, Option.bind_some, hstart]
  rwa [hn] at hrest

end LaneV2

/-- A reassembly after some canonical fragments. -/
structure Started (lane : NegotiatedLane) (r : Reassembly) : Prop where
  id : r.requestId < 256 ^ 8
  logical : r.logicalLen ≤ lane.limits.maxPayloadBytes
  count : fragmentCount r.logicalLen lane.maxFragmentPayloadBytes = some r.fragmentCount
  next_le : r.nextFragmentIndex ≤ r.fragmentCount
  payload : r.payload.length = min (r.nextFragmentIndex * lane.maxFragmentPayloadBytes) r.logicalLen

variable {r next : Reassembly} {inputs : List Bytes}

theorem push_eq_ok : r.push f = .ok next ↔ (f.requestId = r.requestId ∧ f.kind = r.kind ∧
    f.logicalLen = r.logicalLen ∧ f.fragmentCount = r.fragmentCount ∧
    f.fragmentIndex = r.nextFragmentIndex ∧ f.offset = r.payload.length) ∧
    next = {r with payload := r.payload ++ f.payload, nextFragmentIndex := r.nextFragmentIndex + 1} := by
  rw [Reassembly.push]
  split
  next hbad =>
    refine iff_of_false nofun fun ⟨⟨hid, hkind, hlogical, hcount, hindex, hoffset⟩, _⟩ => ?_
    simp [hid, hkind, hlogical, hcount, hindex, hoffset] at hbad
  next hgood =>
    simp only [Bool.or_eq_true, decide_eq_true_eq, not_or, ne_eq, not_not] at hgood
    obtain ⟨⟨⟨⟨⟨hid, hkind⟩, hlogical⟩, hcount⟩, hindex⟩, hoffset⟩ := hgood
    rw [Except.ok.injEq, eq_comm]
    exact (and_iff_right ⟨hid, hkind, hlogical, hcount, hindex, hoffset⟩).symm

theorem start_eq_ok : Reassembly.start f = .ok r ↔ f.fragmentIndex = 0 ∧
    r = ⟨f.requestId, f.kind, f.logicalLen, f.fragmentCount, 1, f.payload⟩ := by
  rw [Reassembly.start]
  split
  next hbad => exact iff_of_false nofun fun h => hbad h.1
  next hgood =>
    rw [Except.ok.injEq, eq_comm]
    exact (and_iff_right (not_not.1 hgood)).symm

namespace LaneV2

variable (hl : LaneV2 lane)
include hl

theorem started_start (hdecode : decodeOn lane input = some f) (h : Reassembly.start f = .ok r) :
    Started lane r := by
  obtain ⟨hfits, haccepts, -⟩ := hl.decodeOn_eq_some.1 hdecode
  obtain ⟨hlogical, -, hzero, -, hcount, -, -, -, hlen⟩ := acceptsFragment_iff.1 haccepts
  obtain ⟨hindex, rfl⟩ := start_eq_ok.1 h
  refine ⟨hfits.requestId, hlogical, hcount.symm, Nat.pos_of_ne_zero hzero, ?_⟩
  rw [hlen, hindex, Nat.zero_mul, Nat.sub_zero, Nat.one_mul, Nat.min_comm]

theorem started_push (hr : Started lane r) (hdecode : decodeOn lane input = some f)
    (h : r.push f = .ok next) : Started lane next := by
  obtain ⟨-, haccepts, -⟩ := hl.decodeOn_eq_some.1 hdecode
  obtain ⟨-, -, -, -, -, hstart, hlt, hoffset, hlen⟩ := acceptsFragment_iff.1 haccepts
  obtain ⟨⟨-, -, hlogical, hcount, hindex, hplace⟩, rfl⟩ := push_eq_ok.1 h
  rw [hlogical, hindex] at hstart hlen
  refine ⟨hr.id, hr.logical, hr.count, hindex ▸ hcount ▸ hlt, ?_⟩
  change (r.payload ++ f.payload).length =
    min ((r.nextFragmentIndex + 1) * lane.maxFragmentPayloadBytes) r.logicalLen
  rw [length_append, ← hplace, hoffset, hindex, hlen, Nat.add_mul, Nat.one_mul]
  omega

theorem isComplete_iff (hr : Started lane r) : r.isComplete = true ↔ r.nextFragmentIndex = r.fragmentCount := by
  obtain ⟨count, hcount, -, htotal, -⟩ :=
    @fragmentCount_spec r.logicalLen lane.maxFragmentPayloadBytes hl.part_pos
  rw [hr.count] at hcount
  cases hcount
  simp only [Reassembly.isComplete, Bool.and_eq_true, decide_eq_true_eq]
  refine and_iff_right_of_imp fun hnext => ?_
  rw [hr.payload, hnext]
  exact min_eq_right htotal

theorem countOf_eq (hr : Started lane r) (hlen : frame.payload.length = r.logicalLen) :
    countOf lane frame = r.fragmentCount := by
  have hcount := hl.fragmentCount_eq frame
  rw [hlen, hr.count] at hcount
  exact (Option.some.inj hcount).symm

theorem collect_sound (hr : Started lane r) (h : r.collect lane inputs = some frame) :
    r = assemblyAt lane frame r.nextFragmentIndex ∧
      inputs = ((List.range' r.nextFragmentIndex (r.fragmentCount - r.nextFragmentIndex)).map
        (fragmentAt lane frame)).map Fragment.bytes := by
  induction inputs generalizing r with
  | nil =>
    rw [Reassembly.collect] at h
    split at h
    next hcomplete =>
      obtain rfl := Option.some.inj h
      have hnext := (hl.isComplete_iff hr).1 hcomplete
      have hlen : r.payload.length = r.logicalLen := by
        rw [Reassembly.isComplete, Bool.and_eq_true, decide_eq_true_eq] at hcomplete
        exact hcomplete.1
      have hcount : countOf lane ⟨r.requestId, r.kind, r.payload⟩ = r.fragmentCount :=
        hl.countOf_eq hr hlen
      have htotal := (hl.countOf_spec ⟨r.requestId, r.kind, r.payload⟩).2.1
      rw [hcount] at htotal
      refine ⟨?_, by rw [hnext, Nat.sub_self, range'_zero]; rfl⟩
      rw [assemblyAt, hcount, take_of_length_le (hnext ▸ htotal), hlen]
    next => exact nomatch h
  | cons input inputs ih =>
    rw [Reassembly.collect] at h
    split at h
    next => exact nomatch h
    next hopen =>
      obtain ⟨f, hdecode, h⟩ := Option.bind_eq_some_iff.1 h
      obtain ⟨next, hpush, h⟩ := Option.bind_eq_some_iff.1 h
      rw [toOption_eq_some] at hpush
      obtain ⟨hsame, hinputs⟩ := ih (hl.started_push hr hdecode hpush) h
      obtain ⟨-, haccepts, rfl⟩ := hl.decodeOn_eq_some.1 hdecode
      obtain ⟨-, -, -, -, -, hstart, hlt, hoffset, -⟩ := acceptsFragment_iff.1 haccepts
      obtain ⟨⟨hid, hkind, hlogical, hcount, hindex, hplace⟩, rfl⟩ := push_eq_ok.1 hpush
      obtain ⟨hid', hkind', hlogical', hcount', hpayload⟩ :
          r.requestId = frame.requestId ∧ r.kind = frame.kind ∧ r.logicalLen = frame.payload.length ∧
          r.fragmentCount = countOf lane frame ∧
          r.payload ++ f.payload = frame.payload.take
            (r.nextFragmentIndex * lane.maxFragmentPayloadBytes + lane.maxFragmentPayloadBytes) := by
        simp only [assemblyAt, Reassembly.mk.injEq, Nat.add_mul, Nat.one_mul] at hsame
        exact ⟨hsame.1, hsame.2.1, hsame.2.2.1, hsame.2.2.2.1, hsame.2.2.2.2.2⟩
      have hwritten : r.payload.length = r.nextFragmentIndex * lane.maxFragmentPayloadBytes := by
        rw [← hplace, hoffset, hindex]
      rw [take_add] at hpayload
      rw [hindex, hlogical, hlogical'] at hstart
      obtain ⟨hbefore, hpart⟩ := append_inj hpayload (by
        rw [hwritten, length_take, min_eq_left hstart])
      have hfragment : f = fragmentAt lane frame r.nextFragmentIndex := by
        rw [hl.fragmentAt_eq, ← hkind', ← hid', ← hlogical', ← hcount', ← hpart, ← hkind, ← hid, ← hlogical,
          ← hcount, ← hindex, ← hoffset]
      refine ⟨by rw [assemblyAt, ← hid', ← hkind', ← hlogical', ← hcount', ← hbefore], ?_⟩
      rw [hindex, hcount] at hlt
      obtain ⟨n, hn⟩ : ∃ n, r.fragmentCount - r.nextFragmentIndex = n + 1 :=
        ⟨_, (Nat.sub_add_cancel (Nat.sub_pos_of_lt hlt)).symm⟩
      have hrest : r.fragmentCount - (r.nextFragmentIndex + 1) = n := by omega
      rw [hn, range'_succ, map_cons, map_cons, ← hfragment, hinputs, hrest]

theorem start_eq_push (hdecode : decodeOn lane input = some f) (h : Reassembly.start f = .ok r) :
    Started lane ⟨f.requestId, f.kind, f.logicalLen, f.fragmentCount, 0, []⟩ ∧
      Reassembly.push ⟨f.requestId, f.kind, f.logicalLen, f.fragmentCount, 0, []⟩ f = .ok r := by
  obtain ⟨hfits, haccepts, -⟩ := hl.decodeOn_eq_some.1 hdecode
  obtain ⟨hlogical, -, -, -, hcount, -, -, hoffset, -⟩ := acceptsFragment_iff.1 haccepts
  obtain ⟨hindex, rfl⟩ := start_eq_ok.1 h
  rw [hindex, Nat.zero_mul] at hoffset
  refine ⟨⟨hfits.requestId, hlogical, hcount.symm, Nat.zero_le _, ?_⟩, ?_⟩
  · rw [Nat.zero_mul, Nat.zero_min]
    rfl
  · exact push_eq_ok.2 ⟨⟨rfl, rfl, rfl, rfl, hindex, hoffset⟩, rfl⟩

theorem reassemble_eq_some : reassemble lane inputs = some frame ↔ frame.requestId < 256 ^ 8 ∧
    frame.payload.length ≤ lane.limits.maxPayloadBytes ∧
    inputs = (responseFragments lane frame).map Fragment.bytes := by
  constructor
  · intro h
    cases inputs with
    | nil => exact nomatch h
    | cons input inputs =>
      obtain ⟨f, hdecode, h⟩ := Option.bind_eq_some_iff.1 h
      obtain ⟨r, hstart, h⟩ := Option.bind_eq_some_iff.1 h
      rw [toOption_eq_some] at hstart
      obtain ⟨hempty, hpush⟩ := hl.start_eq_push hdecode hstart
      have hopen := hl.isComplete_iff hempty
      have hcollect : Reassembly.collect lane
          ⟨f.requestId, f.kind, f.logicalLen, f.fragmentCount, 0, []⟩ (input :: inputs) = some frame := by
        have hzero : ¬ 0 = f.fragmentCount := by
          obtain ⟨-, haccepts, -⟩ := hl.decodeOn_eq_some.1 hdecode
          exact Ne.symm (acceptsFragment_iff.1 haccepts).2.2.1
        rw [Reassembly.collect, if_neg fun hcomplete => hzero (hopen.1 hcomplete), hdecode,
          Option.bind_some, hpush]
        exact h
      obtain ⟨hsame, hinputs⟩ := hl.collect_sound hempty hcollect
      simp only [assemblyAt, Reassembly.mk.injEq] at hsame
      obtain ⟨hid, -, hlogical, hcount, -⟩ := hsame
      refine ⟨hid ▸ hempty.id, hlogical ▸ hempty.logical, ?_⟩
      rw [hinputs, responseFragments, range_eq_range', hcount]
      rfl
  · rintro ⟨hid, hpayload, rfl⟩
    exact hl.reassemble_fragments hid hpayload

end LaneV2

/-- The plugin's and the server's reassembly of the same fragments; the plugin has room for the rest. -/
structure Mirrors (response : Plugin.ResponseAssembly) (r : Reassembly) : Prop where
  kind : response.kind = r.kind
  logical : response.logicalLength = r.logicalLen
  count : response.fragmentCount = r.fragmentCount
  next : response.nextFragmentIndex = r.nextFragmentIndex
  payload : response.payload = r.payload ++ List.replicate (r.logicalLen - r.payload.length) 0

variable {response : Plugin.ResponseAssembly}

theorem assemble_eq_some :
    Plugin.assemble (some response) false f = some response' ↔ (f.fragmentIndex ≠ 0 ∧
      response.kind = f.kind ∧ response.logicalLength = f.logicalLen ∧
      response.fragmentCount = f.fragmentCount ∧ response.nextFragmentIndex = f.fragmentIndex ∧
      f.offset + f.payload.length ≤ response.payload.length) ∧
    response' = {response with
      nextFragmentIndex := response.nextFragmentIndex + 1
      payload := response.payload.take f.offset ++ f.payload ++
        response.payload.drop (f.offset + f.payload.length)} := by
  rw [Plugin.assemble]
  by_cases hzero : f.fragmentIndex = 0
  · simp [hzero]
  · rw [if_pos hzero, Option.bind_some]
    split
    next hbad =>
      refine iff_of_false nofun fun ⟨⟨_, hkind, hlogical, hcount, hindex, hroom⟩, _⟩ => ?_
      simp [hkind, hlogical, hcount, hindex, Nat.not_lt.2 hroom] at hbad
    next hgood =>
      simp only [Bool.or_eq_true, decide_eq_true_eq, not_or, ne_eq, not_not, not_lt] at hgood
      obtain ⟨⟨⟨⟨hkind, hlogical⟩, hcount⟩, hindex⟩, hroom⟩ := hgood
      rw [Option.some_inj, eq_comm]
      exact (and_iff_right ⟨hzero, hkind, hlogical, hcount, hindex, hroom⟩).symm

theorem write_replicate :
    (written ++ List.replicate (total - written.length) (0 : UInt8)).take written.length ++ part ++
      (written ++ List.replicate (total - written.length) 0).drop (written.length + part.length) =
      written ++ part ++ List.replicate (total - (written ++ part).length) 0 := by
  rw [take_left, drop_append, drop_eq_nil_of_le (Nat.le_add_right _ _), nil_append,
    Nat.add_sub_cancel_left, drop_replicate, length_append, Nat.sub_sub]

namespace LaneV2

variable (hl : LaneV2 lane)
include hl

theorem assemble_next (hr : Started lane r) (hm : Mirrors response r) (hpos : r.nextFragmentIndex ≠ 0)
    (hdecode : decodeOn lane input = some f) (hid : f.requestId = r.requestId) :
    (∃ next response', r.push f = .ok next ∧ Plugin.assemble (some response) false f = some response' ∧
      Mirrors response' next) ∨
    (r.push f).toOption = none ∧ Plugin.assemble (some response) false f = none := by
  obtain ⟨-, haccepts, -⟩ := hl.decodeOn_eq_some.1 hdecode
  obtain ⟨-, -, -, -, -, hstart, -, hoffset, hlen⟩ := acceptsFragment_iff.1 haccepts
  by_cases hsame : f.kind = r.kind ∧ f.logicalLen = r.logicalLen ∧ f.fragmentCount = r.fragmentCount ∧
      f.fragmentIndex = r.nextFragmentIndex
  · obtain ⟨hkind, hlogical, hcount, hindex⟩ := hsame
    have hwritten : f.offset = r.payload.length := by
      rw [hlogical, hindex] at hstart
      rw [hoffset, hindex, hr.payload, min_eq_left hstart]
    have hroom : r.payload.length + f.payload.length ≤ r.logicalLen := by
      rw [← hwritten, hoffset, hlen, ← hlogical]
      omega
    refine .inl ⟨_, _, push_eq_ok.2 ⟨⟨hid, hkind, hlogical, hcount, hindex, hwritten⟩, rfl⟩,
      assemble_eq_some.2 ⟨⟨hindex ▸ hpos, hm.kind.trans hkind.symm, hm.logical.trans hlogical.symm,
        hm.count.trans hcount.symm, hm.next.trans hindex.symm, ?_⟩, rfl⟩, ?_⟩
    · rw [hwritten, hm.payload, length_append, length_replicate]
      omega
    · refine ⟨hm.kind, hm.logical, hm.count, congrArg (· + 1) hm.next, ?_⟩
      rw [hwritten, hm.payload]
      exact write_replicate
  · refine .inr ⟨Option.eq_none_iff_forall_not_mem.2 fun next hnext => hsame ?_,
      Option.eq_none_iff_forall_not_mem.2 fun response' hresponse => hsame ?_⟩
    · obtain ⟨⟨-, hkind, hlogical, hcount, hindex, -⟩, -⟩ := push_eq_ok.1 (toOption_eq_some.1 hnext)
      exact ⟨hkind, hlogical, hcount, hindex⟩
    · obtain ⟨⟨-, hkind, hlogical, hcount, hindex, -⟩, -⟩ := assemble_eq_some.1 hresponse
      exact ⟨hkind.symm.trans hm.kind, hlogical.symm.trans hm.logical, hcount.symm.trans hm.count,
        hindex.symm.trans hm.next⟩

theorem decodeWs_eq : (decodeWsDataFragment lane input).toOption =
    (decodeOn lane input).filter fun f => f.requestId ≤ maxSafeInteger := by
  ext f
  rw [hl.decodeWs_eq_some, Option.filter_eq_some_iff, decide_eq_true_eq, and_comm]

theorem collect_complete (hr : Started lane r) (hm : Mirrors response r)
    (hnext : r.nextFragmentIndex = r.fragmentCount) :
    (if inputs = [] then some (⟨r.requestId, response.kind, response.payload⟩ : RpcResponse) else none) =
      r.collect lane inputs := by
  have hcomplete := (hl.isComplete_iff hr).2 hnext
  have hlen : r.payload.length = r.logicalLen := by
    rw [Reassembly.isComplete, Bool.and_eq_true, decide_eq_true_eq] at hcomplete
    exact hcomplete.1
  cases inputs with
  | nil =>
    rw [if_pos rfl, Reassembly.collect, if_pos hcomplete, hm.kind, hm.payload, hlen, Nat.sub_self,
      replicate_zero, append_nil]
  | cons input inputs => rw [if_neg (cons_ne_nil _ _), Reassembly.collect, if_pos hcomplete]

theorem wsCollect_eq (hsafe : r.requestId ≤ maxSafeInteger) (hr : Started lane r) (hm : Mirrors response r)
    (hpos : r.nextFragmentIndex ≠ 0) (hopen : r.nextFragmentIndex ≠ r.fragmentCount) :
    wsCollect lane r.requestId (some response) inputs = r.collect lane inputs := by
  have hincomplete : ¬ r.isComplete = true := fun h => hopen ((hl.isComplete_iff hr).1 h)
  induction inputs generalizing r response with
  | nil => rw [wsCollect, Reassembly.collect, if_neg hincomplete]
  | cons input inputs ih =>
    rw [wsCollect, Reassembly.collect, if_neg hincomplete, hl.decodeWs_eq]
    cases hdecode : decodeOn lane input with
    | none => rfl
    | some f =>
      by_cases hid : f.requestId = r.requestId
      · rw [Option.filter_some_pos (by rwa [hid, decide_eq_true_eq]), Option.bind_some, Option.bind_some,
          if_neg (not_not.2 hid)]
        rcases hl.assemble_next hr hm hpos hdecode hid with ⟨next, response', hpush, hassemble, hm'⟩ | ⟨hpush, hassemble⟩
        · have hr' := hl.started_push hr hdecode hpush
          have hsame : next.requestId = r.requestId := by
            obtain ⟨-, rfl⟩ := push_eq_ok.1 hpush
            rfl
          have hpos' : next.nextFragmentIndex ≠ 0 := by
            obtain ⟨-, rfl⟩ := push_eq_ok.1 hpush
            exact Nat.succ_ne_zero _
          rw [hassemble, hpush, Option.bind_some, ← hsame]
          change _ = next.collect lane inputs
          split
          next hend => exact hl.collect_complete hr' hm' (by rwa [← hm'.next, ← hm'.count])
          next hend =>
            rw [hm'.next, hm'.count] at hend
            exact ih (hsame ▸ hsafe) hr' hm' hpos' hend fun h => hend ((hl.isComplete_iff hr').1 h)
        · rw [hassemble, hpush]
          rfl
      · have hpush : (r.push f).toOption = none :=
          Option.eq_none_iff_forall_not_mem.2 fun next hnext =>
            hid (push_eq_ok.1 (toOption_eq_some.1 hnext)).1.1
        rw [Option.bind_some, hpush]
        by_cases hf : f.requestId ≤ maxSafeInteger
        · rw [Option.filter_some_pos (by simpa using hf), Option.bind_some, if_pos hid]
          rfl
        · rw [Option.filter_some_neg (by simpa using hf)]
          rfl

theorem assemble_first (hdecode : decodeOn lane input = some f) :
    (∃ r response, Reassembly.start f = .ok r ∧ Plugin.assemble none false f = some response ∧
      Mirrors response r) ∨
    (Reassembly.start f).toOption = none ∧ Plugin.assemble none false f = none := by
  obtain ⟨-, haccepts, -⟩ := hl.decodeOn_eq_some.1 hdecode
  obtain ⟨-, -, -, -, -, hstart, -, hoffset, hlen⟩ := acceptsFragment_iff.1 haccepts
  by_cases hindex : f.fragmentIndex = 0
  · rw [hindex, Nat.zero_mul] at hoffset hlen
    have hroom : f.payload.length ≤ f.logicalLen := by omega
    have hassemble : Plugin.assemble none false f = some ⟨f.kind, f.logicalLen, f.fragmentCount, 1,
        f.payload ++ List.replicate (f.logicalLen - f.payload.length) 0⟩ := by
      simp [Plugin.assemble, hindex, hoffset, Nat.not_lt.2 hroom]
    exact .inl ⟨_, _, start_eq_ok.2 ⟨hindex, rfl⟩, hassemble, ⟨rfl, rfl, rfl, rfl, rfl⟩⟩
  · refine .inr ⟨?_, ?_⟩
    · rw [Reassembly.start, if_pos hindex]
      rfl
    · rw [Plugin.assemble, if_pos hindex]
      rfl

theorem wsCollect_first (hdecode : decodeOn lane input = some f) (hsafe : f.requestId ≤ maxSafeInteger) :
    wsCollect lane f.requestId none (input :: inputs) = reassemble lane (input :: inputs) := by
  rw [wsCollect, reassemble, hl.decodeWs_eq, hdecode, Option.filter_some_pos (by simpa using hsafe),
    Option.bind_some, Option.bind_some, if_neg (not_not.2 rfl)]
  rcases hl.assemble_first hdecode with ⟨r, response, hstart, hassemble, hm⟩ | ⟨hstart, hassemble⟩
  · have hr := hl.started_start hdecode hstart
    obtain ⟨hid, hnext⟩ : r.requestId = f.requestId ∧ r.nextFragmentIndex ≠ 0 := by
      obtain ⟨-, rfl⟩ := start_eq_ok.1 hstart
      exact ⟨rfl, Nat.one_ne_zero⟩
    rw [hassemble, hstart, Option.bind_some, ← hid]
    change _ = r.collect lane inputs
    split
    next hend => exact hl.collect_complete hr hm (by rwa [← hm.next, ← hm.count])
    next hend =>
      rw [hm.next, hm.count] at hend
      exact hl.wsCollect_eq (hid ▸ hsafe) hr hm hnext hend
  · rw [hassemble, hstart]
    rfl

theorem wsCollect_eq_some : wsCollect lane requestId none inputs = some frame ↔
    frame.requestId = requestId ∧ requestId ≤ maxSafeInteger ∧ reassemble lane inputs = some frame := by
  cases inputs with
  | nil => exact iff_of_false (by rintro ⟨⟩) (by rintro ⟨-, -, ⟨⟩⟩)
  | cons input inputs =>
    have hfirst (frame : RpcResponse) (h : reassemble lane (input :: inputs) = some frame) :
        ∃ f, decodeOn lane input = some f ∧ f.requestId = frame.requestId := by
      obtain ⟨hid, hpayload, hinputs⟩ := hl.reassemble_eq_some.1 h
      obtain ⟨hpos, -, -⟩ := hl.countOf_spec frame
      obtain ⟨n, hn⟩ : ∃ n, countOf lane frame = n + 1 := ⟨_, (Nat.sub_add_cancel hpos).symm⟩
      rw [responseFragments, range_eq_range', hn, range'_succ, map_cons, map_cons,
        List.cons.injEq] at hinputs
      exact ⟨_, hinputs.1 ▸ hl.decodeOn_fragmentAt hid hpayload hpos, requestId_fragmentAt⟩
    constructor
    · intro h
      have hws := h
      rw [wsCollect] at h
      obtain ⟨f, hdecode, h⟩ := Option.bind_eq_some_iff.1 h
      obtain ⟨hsafe, hdecode⟩ := hl.decodeWs_eq_some.1 hdecode
      split at h
      next => cases h
      next hid =>
        rw [not_not] at hid
        rw [← hid, hl.wsCollect_first hdecode hsafe] at hws
        obtain ⟨f', hdecode', hid'⟩ := hfirst frame hws
        rw [hdecode] at hdecode'
        cases hdecode'
        exact ⟨hid'.symm.trans hid, hid ▸ hsafe, hws⟩
    · rintro ⟨rfl, hsafe, h⟩
      obtain ⟨f, hdecode, hid⟩ := hfirst frame h
      rw [← hid] at hsafe ⊢
      rw [hl.wsCollect_first hdecode hsafe, h]

end LaneV2

/-- On every negotiated lane, both sides cut a frame within the limits into the same messages and give
it back from them; the messages that either side accepts as one frame are those of that frame, and both
decoders answer alike wherever the request id is one that the plugin can hold. -/
theorem fragmentation_exact {requested lane : NegotiatedLane} (h : negotiateLane requested = some lane)
    (hwire : lane.wire = .v2) : (∀ frame : RpcResponse, frame.requestId ≤ maxSafeInteger →
      frame.payload.length ≤ lane.limits.maxPayloadBytes →
      ∃ messages, cutResponse lane frame = .ok messages ∧ cutRequest lane frame = some messages ∧
        reassemble lane messages = some frame ∧ wsCollect lane frame.requestId none messages = some frame) ∧
    (∀ messages frame, reassemble lane messages = some frame →
      frame.payload.length ≤ lane.limits.maxPayloadBytes ∧ cutResponse lane frame = .ok messages) ∧
    (∀ messages requestId frame, wsCollect lane requestId none messages = some frame →
      frame.requestId = requestId ∧ requestId ≤ maxSafeInteger ∧
        frame.payload.length ≤ lane.limits.maxPayloadBytes ∧ cutRequest lane frame = some messages) ∧
    (∀ input f, (decodeWsDataFragment lane input).toOption = some f ↔
      (decodeFragment input lane.limits.maxPayloadBytes lane.maxFragmentPayloadBytes
        lane.maxFragments).toOption = some f ∧ f.requestId ≤ maxSafeInteger) := by
  have hl := negotiateLane_v2 h hwire
  have hsmall {id : Nat} (hid : id ≤ maxSafeInteger) : id < 256 ^ 8 := hid.trans_lt (by decide)
  refine ⟨fun frame hid hpayload => ?_, fun messages frame haccept => ?_,
    fun messages requestId frame haccept => ?_, fun input f => ?_⟩
  · have hback := hl.reassemble_fragments (hsmall hid) hpayload
    exact ⟨_, hl.cutResponse_eq (hsmall hid) hpayload, hl.cutRequest_eq hid hpayload, hback,
      hl.wsCollect_eq_some.2 ⟨rfl, hid, hback⟩⟩
  · obtain ⟨hid, hpayload, rfl⟩ := hl.reassemble_eq_some.1 haccept
    exact ⟨hpayload, hl.cutResponse_eq hid hpayload⟩
  · obtain ⟨rfl, hsafe, hback⟩ := hl.wsCollect_eq_some.1 haccept
    obtain ⟨-, hpayload, rfl⟩ := hl.reassemble_eq_some.1 hback
    exact ⟨rfl, hsafe, hpayload, hl.cutRequest_eq hsafe hpayload⟩
  · rw [hl.decodeWs_eq_some, and_comm]
    rfl

def narrowLane : NegotiatedLane := ⟨.v2, ⟨2048, 1, 4096⟩, 1024, 2⟩

/-- Two fragments. -/
theorem fragmentation_exact_small :
    ∃ messages, cutResponse narrowLane ⟨7, .getResult, List.replicate 1500 1⟩ = .ok messages ∧
      cutRequest narrowLane ⟨7, .getResult, List.replicate 1500 1⟩ = some messages ∧
      reassemble narrowLane messages = some ⟨7, .getResult, List.replicate 1500 1⟩ := by
  have hlane : negotiateLane narrowLane = some narrowLane := by decide
  obtain ⟨hcut, -⟩ := fragmentation_exact hlane rfl
  have hlength : (List.replicate 1500 (1 : UInt8)).length ≤ narrowLane.limits.maxPayloadBytes := by
    rw [length_replicate]
    decide
  obtain ⟨messages, hserver, hplugin, hback, -⟩ :=
    hcut ⟨7, .getResult, List.replicate 1500 1⟩ (by decide : 7 ≤ maxSafeInteger) hlength
  exact ⟨messages, hserver, hplugin, hback⟩

end Obsetync.DataLane
