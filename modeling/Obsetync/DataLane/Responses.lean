import Obsetync.DataLane.Session

namespace Obsetync.DataLane
open Wire List

structure LaneOk (lane : NegotiatedLane) : Prop where
  payload_ge : 1024 ≤ lane.limits.maxPayloadBytes
  payload_le : lane.limits.maxPayloadBytes ≤ maxPayloadBytes
  fragment_ge : lane.wire = .v2 → 1024 ≤ lane.maxFragmentPayloadBytes
  fragments_le : lane.wire = .v2 → lane.maxFragments ≤ maxFragments
  representable : lane.wire = .v2 →
    lane.limits.maxPayloadBytes ≤ lane.maxFragmentPayloadBytes * lane.maxFragments

theorem negotiateLimits_spec (h : negotiateLimits requested = some limits) :
    1024 ≤ limits.maxPayloadBytes ∧ limits.maxPayloadBytes ≤ maxPayloadBytes ∧
      limits.maxPayloadBytes ≤ requested.maxPayloadBytes := by
  rw [negotiateLimits] at h
  split_ifs at h with hbad
  obtain rfl := Option.some.inj h
  simp only [Bool.or_eq_true, decide_eq_true_eq, not_or, not_lt] at hbad
  obtain ⟨⟨hpayload, -⟩, -⟩ := hbad
  exact ⟨le_min hpayload (by decide), min_le_right _ _, min_le_left _ _⟩

theorem negotiateLane_ok (h : negotiateLane requested = some lane) : LaneOk lane := by
  rw [negotiateLane] at h
  cases hwire : requested.wire with
  | v1 =>
    rw [hwire] at h
    obtain ⟨limits, hlimits, rfl⟩ := Option.map_eq_some_iff.1 h
    obtain ⟨hge, hle, -⟩ := negotiateLimits_spec hlimits
    exact ⟨hge, hle, nofun, nofun, nofun⟩
  | v2 =>
    rw [hwire] at h
    dsimp only at h
    split_ifs at h with hbad
    obtain ⟨limits, hlimits, rfl⟩ := Option.map_eq_some_iff.1 h
    obtain ⟨hge, hle, hreq⟩ := negotiateLimits_spec hlimits
    simp only [Bool.or_eq_true, decide_eq_true_eq, not_or, not_lt] at hbad
    exact ⟨hge, hle, fun _ => le_min hbad.1 (by decide), fun _ => min_le_right _ _,
      fun _ => hreq.trans (min_le_right _ _)⟩

def countOf (lane : NegotiatedLane) (response : RpcResponse) : Nat :=
  match lane.wire with
  | .v1 => 1
  | .v2 => (fragmentCount response.payload.length lane.maxFragmentPayloadBytes).getD 0

def fragmentAt (lane : NegotiatedLane) (response : RpcResponse) (index : Nat) : Fragment :=
  match lane.wire with
  | .v1 => ⟨response.kind, response.requestId, response.payload.length, 0, 0, 1, response.payload⟩
  | .v2 => responseFragment lane
    ⟨response, .bulk, index * lane.maxFragmentPayloadBytes, index⟩ (countOf lane response)

def responseFragments (lane : NegotiatedLane) (response : RpcResponse) : List Fragment :=
  (List.range (countOf lane response)).map (fragmentAt lane response)

variable {lane : NegotiatedLane} {response : RpcResponse} {index total size : Nat}

@[simp] theorem length_responseFragments :
    (responseFragments lane response).length = countOf lane response := by
  rw [responseFragments, length_map, length_range]

theorem requestId_fragmentAt : (fragmentAt lane response index).requestId = response.requestId := by
  rw [fragmentAt]
  split <;> rfl

theorem take_responseFragments_succ (h : index < countOf lane response) :
    (responseFragments lane response).take (index + 1) =
      (responseFragments lane response).take index ++ [fragmentAt lane response index] := by
  rw [take_add_one, getElem?_eq_getElem (by rwa [length_responseFragments])]
  simp [responseFragments]

theorem fragmentCount_spec (hsize : 0 < size) :
    ∃ count, fragmentCount total size = some count ∧ 0 < count ∧ total ≤ count * size ∧
      (∀ index < count, index * size ≤ total) ∧ ∀ n, total ≤ size * n → 0 < n → count ≤ n := by
  rw [fragmentCount, if_neg hsize.ne']
  by_cases hzero : total = 0
  · rw [if_pos hzero]
    refine ⟨1, rfl, Nat.one_pos, by omega, ?_, fun n _ hn => hn⟩
    intro index hindex
    rw [Nat.lt_one_iff.1 hindex, Nat.zero_mul]
    exact Nat.zero_le _
  · rw [if_neg hzero]
    refine ⟨_, rfl, Nat.div_pos (by omega) hsize, ?_, ?_, ?_⟩
    · have := Nat.lt_div_mul_add hsize (a := total + (size - 1))
      omega
    · intro index hindex
      have hle : (index + 1) * size ≤ total + (size - 1) :=
        (Nat.le_div_iff_mul_le hsize).1 hindex
      rw [Nat.add_mul, Nat.one_mul] at hle
      omega
    · intro n hn hpos
      rw [Nat.div_le_iff_le_mul_add_pred hsize]
      omega

theorem countOf_pos (hlane : LaneOk lane) : 0 < countOf lane response := by
  rw [countOf]
  cases hwire : lane.wire with
  | v1 => exact Nat.one_pos
  | v2 =>
    obtain ⟨count, hcount, hpos, -⟩ := fragmentCount_spec
      (lt_of_lt_of_le (by decide) (hlane.fragment_ge hwire))
    dsimp only
    rw [hcount]
    exact hpos

theorem fragmentCount_eq_countOf (hlane : LaneOk lane) (hwire : lane.wire = .v2)
    (response : RpcResponse) : fragmentCount response.payload.length lane.maxFragmentPayloadBytes =
      some (countOf lane response) := by
  obtain ⟨count, hcount, -⟩ := fragmentCount_spec
    (lt_of_lt_of_le (by decide) (hlane.fragment_ge hwire))
  rw [countOf, hwire]
  dsimp only
  rw [hcount]
  rfl

theorem encodeFragment_fragmentAt (hlane : LaneOk lane) (hwire : lane.wire = .v2)
    (hpayload : response.payload.length ≤ lane.limits.maxPayloadBytes)
    (hindex : index < countOf lane response) : countOf lane response ≤ lane.maxFragments ∧
      encodeFragment (fragmentAt lane response index) lane.maxFragmentPayloadBytes lane.maxFragments =
        some (fragmentAt lane response index) := by
  have hcountOf := fragmentCount_eq_countOf hlane hwire response
  have hsize : 0 < lane.maxFragmentPayloadBytes :=
    lt_of_lt_of_le (by decide) (hlane.fragment_ge hwire)
  obtain ⟨count, hcount, hpos, htotal, hstart, hleast⟩ :=
    fragmentCount_spec hsize
  rw [hcount] at hcountOf
  cases hcountOf
  have hmax := hlane.payload_le
  rw [maxPayloadBytes] at hmax
  have hfragments := hlane.fragments_le hwire
  rw [maxFragments] at hfragments
  have hrep := hpayload.trans (hlane.representable hwire)
  have hcountLe : countOf lane response ≤ lane.maxFragments := by
    apply hleast _ hrep
    apply Nat.pos_of_ne_zero
    intro hzero
    have hge := hlane.payload_ge
    have := hlane.representable hwire
    rw [hzero, Nat.mul_zero] at this
    omega
  have hoffset := hstart index hindex
  refine ⟨hcountLe, if_pos ?_⟩
  have hlen : (fragmentAt lane response index).payload.length =
      min (response.payload.length - index * lane.maxFragmentPayloadBytes)
        lane.maxFragmentPayloadBytes := by
    rw [fragmentAt, hwire]
    simp only [responseFragment, length_drop, length_take]
    omega
  simp only [acceptsFragment, hlen, Bool.and_eq_true, decide_eq_true_eq]
  rw [fragmentAt, hwire]
  simp only [responseFragment]
  have hbytes : response.payload.length < 2 ^ 32 := by omega
  have hsmall : min (response.payload.length - index * lane.maxFragmentPayloadBytes)
      lane.maxFragmentPayloadBytes < 2 ^ 32 := by omega
  exact ⟨⟨⟨⟨⟨hbytes, by omega⟩, hsmall⟩, by omega⟩, by omega⟩,
    ⟨⟨⟨⟨⟨⟨⟨le_refl _, min_le_right _ _⟩, hpos.ne'⟩, hcountLe⟩, hcount.symm⟩, hoffset⟩, hindex⟩,
      trivial⟩, trivial⟩

theorem countOf_le (hlane : LaneOk lane)
    (hpayload : response.payload.length ≤ lane.limits.maxPayloadBytes) :
    countOf lane response ≤ maxFragments := by
  cases hwire : lane.wire with
  | v1 =>
    rw [countOf, hwire]
    exact (by decide : 1 ≤ maxFragments)
  | v2 =>
    exact (encodeFragment_fragmentAt hlane hwire hpayload (countOf_pos hlane)).1.trans
      (hlane.fragments_le hwire)

theorem sendReadyHead_spec (hlane : LaneOk lane)
    (hpayload : ready.response.payload.length ≤ lane.limits.maxPayloadBytes)
    (hindex : ready.nextFragmentIndex < countOf lane ready.response)
    (hoffset : ready.offset = ready.nextFragmentIndex * lane.maxFragmentPayloadBytes) :
    ∃ offset, sendReadyHead lane ready = .ok
        ({ ready with offset, nextFragmentIndex := ready.nextFragmentIndex + 1 },
          fragmentAt lane ready.response ready.nextFragmentIndex,
          decide (ready.nextFragmentIndex + 1 = countOf lane ready.response)) ∧
      (ready.nextFragmentIndex + 1 < countOf lane ready.response →
        offset = (ready.nextFragmentIndex + 1) * lane.maxFragmentPayloadBytes) := by
  cases hwire : lane.wire with
  | v1 =>
    have hone : countOf lane ready.response = 1 := by
      rw [countOf, hwire]
    rw [hone] at hindex ⊢
    have hzero := Nat.lt_one_iff.1 hindex
    have hmax := hlane.payload_le
    rw [maxPayloadBytes] at hmax
    have hframe : encodeFrame ready.response.kind ready.response.requestId ready.response.payload
        lane.limits.maxPayloadBytes = some (fragmentAt lane ready.response 0) := by
      rw [encodeFrame, if_pos, fragmentAt, hwire]
      simp only [Bool.and_eq_true, decide_eq_true_eq]
      omega
    refine ⟨ready.response.payload.length, ?_, by omega⟩
    rw [sendReadyHead, hwire, hzero]
    dsimp only
    rw [if_neg (by simp), hframe]
    rfl
  | v2 =>
    obtain ⟨hcount, hencode⟩ := encodeFragment_fragmentAt hlane hwire hpayload hindex
    have hsame : responseFragment lane ready (countOf lane ready.response) =
        fragmentAt lane ready.response ready.nextFragmentIndex := by
      rw [fragmentAt, hwire, responseFragment, hoffset]
      rfl
    refine ⟨min (ready.offset + lane.maxFragmentPayloadBytes) ready.response.payload.length, ?_, ?_⟩
    · rw [sendReadyHead, hwire]
      dsimp only
      rw [fragmentCount_eq_countOf hlane hwire]
      dsimp only
      rw [if_neg (by omega), hsame, hencode]
    · intro hnext
      obtain ⟨count, hcount', -, -, hstart, -⟩ :=
        fragmentCount_spec (lt_of_lt_of_le (by decide) (hlane.fragment_ge hwire))
      rw [fragmentCount_eq_countOf hlane hwire] at hcount'
      cases hcount'
      have hle := hstart _ hnext
      rw [Nat.add_mul, Nat.one_mul] at hle ⊢
      rw [hoffset]
      exact min_eq_left hle

theorem length_encodeError_le (code : ErrorCode) (retryAfterMs : Nat) (message : String) :
    (encodeError code retryAfterMs message).length ≤ 1024 := by
  have hmagic : (asBytes "OWE1").length = 4 := by decide
  have htake : ((asBytes message).take maxErrorMessageBytes).length ≤ 256 := length_take_le _ _
  simp only [encodeError, length_append, leBytes_length, hmagic]
  omega

theorem countOf_error (hlane : LaneOk lane) (requestId : Nat) (kind : FrameType) (code : ErrorCode)
    (retryAfterMs : Nat) (message : String) :
    countOf lane ⟨requestId, kind, encodeError code retryAfterMs message⟩ = 1 := by
  have hlen := length_encodeError_le code retryAfterMs message
  rw [countOf]
  cases hwire : lane.wire with
  | v1 => rfl
  | v2 =>
    have hsize := hlane.fragment_ge hwire
    obtain ⟨count, hcount, hpos, -, -, hleast⟩ :=
      @fragmentCount_spec ((encodeError code retryAfterMs message).length) lane.maxFragmentPayloadBytes (by omega)
    have hone := hleast 1 (by omega) Nat.one_pos
    dsimp only
    rw [hcount]
    change count = 1
    omega

end Obsetync.DataLane
