import Obsetync.DataLane.Ledger
import Obsetync.DataLane.Responses

/-! The books of a session: where every admitted request is and what was answered. -/

namespace Obsetync.DataLane
open List

variable {lane : NegotiatedLane} {s s' : Session} {id : Nat} {phase : RpcPhase}

def Session.places (s : Session) : List (Nat × RpcPhase) :=
  s.assembling.map (fun entry => (entry.1, .assembling)) ++
    s.queued.map (fun request => (request.requestId, .queued)) ++
    s.active.map (fun entry => (entry.1, .running)) ++
    s.controlReady.map (fun ready => (ready.response.requestId, .sending)) ++
    s.bulkReady.map (fun ready => (ready.response.requestId, .sending))

def Session.ids (s : Session) : List Nat := s.admission.phases.map Prod.fst

def Session.history (s : Session) (id : Nat) : List Fragment :=
  s.sent.filter (·.requestId = id)

/-- Some of the fragments of a response, in order, without the last. -/
def Cut (lane : NegotiatedLane) (id : Nat) (frames : List Fragment) : Prop :=
  ∃ (response : RpcResponse) (n : Nat), response.requestId = id ∧ n < countOf lane response ∧
    frames = (responseFragments lane response).take n

/-- One whole response, after a cut one at most, which only a single error can follow. -/
def Answered (lane : NegotiatedLane) (id : Nat) (frames : List Fragment) : Prop :=
  ∃ (cut : List Fragment) (response : RpcResponse), Cut lane id cut ∧ response.requestId = id ∧
    frames = cut ++ responseFragments lane response ∧
    (cut ≠ [] → response.kind = .error ∧ countOf lane response = 1)

/-- A response on its way, after `frames`. -/
structure Answering (lane : NegotiatedLane) (frames : List Fragment) (ready : ReadyRpc) : Prop where
  payload_le : ready.response.payload.length ≤ lane.limits.maxPayloadBytes
  index_lt : ready.nextFragmentIndex < countOf lane ready.response
  offset : ready.offset = ready.nextFragmentIndex * lane.maxFragmentPayloadBytes
  frames : ∃ cut, Cut lane ready.response.requestId cut ∧
    frames = cut ++ (responseFragments lane ready.response).take ready.nextFragmentIndex ∧
    (cut ≠ [] → ready.response.kind = .error ∧ countOf lane ready.response = 1)

structure Books (lane : NegotiatedLane) (s : Session) : Prop where
  ledger : s.admission.Sound lane.limits
  placed : s.places.Perm s.admission.phases
  running : s.active.length ≤ maxRunningRequests
  assembling : ∀ entry ∈ s.assembling, entry.2.requestId = entry.1
  active : ∀ entry ∈ s.active, entry.2.request.requestId = entry.1
  last : ∀ id ∈ s.ids, id ≤ s.lastRequestId
  control : ∀ ready ∈ s.controlReady, Answering lane (s.history ready.response.requestId) ready
  bulk : ∀ ready ∈ s.bulkReady, Answering lane (s.history ready.response.requestId) ready
  silent : ∀ id phase, (id, phase) ∈ s.places → phase ≠ .sending → s.history id = []
  unseen : ∀ id, s.lastRequestId < id → s.history id = []

/-- What a step does to requests: those held stay or are answered, and the others stay as they are. -/
structure Advance (lane : NegotiatedLane) (s s' : Session) : Prop where
  last : s.lastRequestId ≤ s'.lastRequestId
  kept : ∀ id ∈ s.ids, id ∈ s'.ids ∨ id ∉ s'.ids ∧ Answered lane id (s'.history id)
  finished : ∀ id ≤ s.lastRequestId, id ∉ s.ids → id ∉ s'.ids ∧ s'.history id = s.history id

theorem Advance.refl (lane : NegotiatedLane) (s : Session) : Advance lane s s :=
  ⟨le_refl _, fun _ h => .inl h, fun _ _ h => ⟨h, rfl⟩⟩

theorem Advance.trans (hs : Books lane s) (h : Advance lane s s') (h' : Advance lane s' s'') :
    Advance lane s s'' := by
  refine ⟨h.last.trans h'.last, ?_, ?_⟩
  · intro id hid
    rcases h.kept id hid with hin | ⟨hout, hanswered⟩
    · exact h'.kept id hin
    · obtain ⟨hout', hsame⟩ := h'.finished id ((hs.last id hid).trans h.last) hout
      rw [hsame]
      exact .inr ⟨hout', hanswered⟩
  · intro id hle hout
    obtain ⟨hout₁, hsame₁⟩ := h.finished id hle hout
    obtain ⟨hout₂, hsame₂⟩ := h'.finished id (hle.trans h.last) hout₁
    exact ⟨hout₂, hsame₂.trans hsame₁⟩

def Lively (s : Session) : Prop :=
  s.queued = [] ∨ s.active ≠ [] ∨ s.controlReady ≠ [] ∨ s.bulkReady ≠ []

def Fine (lane : NegotiatedLane) (s : Session) (x : Except Stop Session) : Prop :=
  (∀ message, x ≠ .error (.panicked message)) ∧
    ∀ s', x = .ok s' → Books lane s' ∧ Advance lane s s' ∧ (Lively s → Lively s')

theorem Fine.ok (h : Books lane s') (hadvance : Advance lane s s')
    (hlively : Lively s → Lively s') : Fine lane s (.ok s') := by
  refine ⟨nofun, ?_⟩
  rintro _ ⟨⟩
  exact ⟨h, hadvance, hlively⟩

theorem fine_closed (reason : String) : Fine lane s (.error (.closed reason)) := ⟨nofun, nofun⟩

theorem fine_protocol (reason : String) : Fine lane s (.error (.protocol reason)) := ⟨nofun, nofun⟩

def remaining (lane : NegotiatedLane) (ready : ReadyRpc) : Nat :=
  countOf lane ready.response - ready.nextFragmentIndex

/-- A bound on the steps that complete every request whose payload has arrived. -/
def work (lane : NegotiatedLane) (s : Session) : Nat :=
  (maxFragments + 2) * s.queued.length + (maxFragments + 1) * s.active.length +
    (s.controlReady.map (remaining lane)).sum + (s.bulkReady.map (remaining lane)).sum

def Gains (lane : NegotiatedLane) (s : Session) (x : Except Stop Session) : Prop :=
  ∃ s', x = .ok s' ∧ Books lane s' ∧ Advance lane s s' ∧ work lane s' < work lane s ∧ Lively s'

theorem Gains.fine (h : Gains lane s x) : Fine lane s x := by
  obtain ⟨s', rfl, hbooks, hadvance, -, hlively⟩ := h
  exact .ok hbooks hadvance fun _ => hlively

theorem perm_moved {places places' ledger rest : List (Nat × RpcPhase)}
    (hx : places.Perm (x :: rest)) (hy : (y :: rest).Perm ledger)
    (h : ∀ p, places'.count p + [x].count p = places.count p + [y].count p) :
    places'.Perm ledger := by
  rw [perm_iff_count]
  intro p
  have h₁ := hx.count_eq p
  have h₂ := hy.count_eq p
  have h₃ := h p
  simp only [count_cons, count_nil] at h₁ h₂ h₃
  omega

theorem Books.nodup_places (h : Books lane s) : (s.places.map Prod.fst).Nodup :=
  (h.placed.map Prod.fst).nodup_iff.2 h.ledger.distinct

theorem Books.mem_ids (h : Books lane s) (hmem : (id, phase) ∈ s.places) : id ∈ s.ids :=
  mem_map.2 ⟨_, h.placed.subset hmem, rfl⟩

theorem Books.place_unique (h : Books lane s) (hmem : (id, phase) ∈ s.places)
    (hmem' : (id, phase') ∈ s.places) : phase = phase' := by
  have hfind := Assoc.find_of_mem h.nodup_places hmem
  rw [Assoc.find_of_mem h.nodup_places hmem'] at hfind
  exact (Option.some.inj hfind).symm

theorem mem_places_assembling (h : entry ∈ s.assembling) : (entry.1, .assembling) ∈ s.places := by
  simp only [Session.places, mem_append, mem_map]
  exact .inl (.inl (.inl (.inl ⟨entry, h, rfl⟩)))

theorem mem_places_queued (h : request ∈ s.queued) : (request.requestId, .queued) ∈ s.places := by
  simp only [Session.places, mem_append, mem_map]
  exact .inl (.inl (.inl (.inr ⟨request, h, rfl⟩)))

theorem mem_places_active (h : entry ∈ s.active) : (entry.1, .running) ∈ s.places := by
  simp only [Session.places, mem_append, mem_map]
  exact .inl (.inl (.inr ⟨entry, h, rfl⟩))

theorem mem_places_control (h : ready ∈ s.controlReady) :
    (ready.response.requestId, .sending) ∈ s.places := by
  simp only [Session.places, mem_append, mem_map]
  exact .inl (.inr ⟨ready, h, rfl⟩)

theorem mem_places_bulk (h : ready ∈ s.bulkReady) :
    (ready.response.requestId, .sending) ∈ s.places := by
  simp only [Session.places, mem_append, mem_map]
  exact .inr ⟨ready, h, rfl⟩

theorem Books.nodup_assembling (h : Books lane s) : (s.assembling.map Prod.fst).Nodup := by
  have hsub := h.nodup_places
  simp only [Session.places, map_append, map_map] at hsub
  exact hsub.of_append_left.of_append_left.of_append_left.of_append_left

theorem Books.nodup_active (h : Books lane s) : (s.active.map Prod.fst).Nodup := by
  have hsub := h.nodup_places
  simp only [Session.places, map_append, map_map] at hsub
  exact hsub.of_append_left.of_append_left.of_append_right

theorem mem_assembling_of_place (h : (id, .assembling) ∈ s.places) :
    ∃ reassembly, (id, reassembly) ∈ s.assembling := by
  simpa [Session.places] using h

theorem mem_queued_of_place (h : (id, .queued) ∈ s.places) :
    ∃ request ∈ s.queued, request.requestId = id := by
  simpa [Session.places] using h

theorem Books.move {source target : RpcPhase} (h : Books lane s) (hmem : (id, source) ∈ s.places)
    (hledger : s'.admission.Sound lane.limits)
    (hphases : ((id, target) :: s.places.erase (id, source)).Perm s'.admission.phases)
    (hcount : ∀ p, s'.places.count p + [(id, source)].count p =
      s.places.count p + [(id, target)].count p)
    (hsent : s'.sent = s.sent) (hlast : s'.lastRequestId = s.lastRequestId)
    (hsilent : target ≠ .sending → source ≠ .sending)
    (hrunning : s'.active.length ≤ maxRunningRequests)
    (hassembling : ∀ entry ∈ s'.assembling, entry.2.requestId = entry.1)
    (hactive : ∀ entry ∈ s'.active, entry.2.request.requestId = entry.1)
    (hcontrol : ∀ ready ∈ s'.controlReady, Answering lane (s.history ready.response.requestId) ready)
    (hbulk : ∀ ready ∈ s'.bulkReady, Answering lane (s.history ready.response.requestId) ready) :
    Books lane s' ∧ Advance lane s s' := by
  have hsplit : s.places.Perm ((id, source) :: s.places.erase (id, source)) :=
    perm_cons_erase hmem
  have hids : s'.ids.Perm s.ids :=
    (hphases.map Prod.fst).symm.trans ((hsplit.map Prod.fst).symm.trans (h.placed.map Prod.fst))
  have hhistory : s'.history = s.history := by
    funext id
    rw [Session.history, Session.history, hsent]
  refine ⟨⟨hledger, perm_moved hsplit hphases hcount, hrunning, hassembling, hactive, ?_, ?_, ?_, ?_,
    ?_⟩, ⟨hlast.ge, ?_, ?_⟩⟩
  · intro id hid
    rw [hlast]
    exact h.last id (hids.mem_iff.1 hid)
  · rw [hhistory]
    exact hcontrol
  · rw [hhistory]
    exact hbulk
  · intro id' phase hplace hphase
    rw [hhistory]
    by_cases heq : (id, target) = (id', phase)
    · cases heq
      exact h.silent id source hmem (hsilent hphase)
    · have hpos := count_pos_iff.2 hplace
      have := hcount (id', phase)
      have hzero : [(id, target)].count (id', phase) = 0 :=
        count_eq_zero.2 fun hin => heq (mem_singleton.1 hin).symm
      rw [hzero] at this
      exact h.silent id' phase (count_pos_iff.1 (by omega)) hphase
  · intro id hid
    rw [hhistory]
    rw [hlast] at hid
    exact h.unseen id hid
  · intro id hid
    exact .inl (hids.mem_iff.2 hid)
  · intro id _ hid
    rw [hhistory]
    exact ⟨fun hin => hid (hids.mem_iff.1 hin), rfl⟩

theorem cut_nil (hlane : LaneOk lane) (id : Nat) : Cut lane id [] :=
  ⟨⟨id, .error, []⟩, 0, rfl, countOf_pos hlane, rfl⟩

theorem Answering.cut {frames : List Fragment} (h : Answering lane frames ready) :
    Cut lane ready.response.requestId frames := by
  obtain ⟨cut, hcut, rfl, herror⟩ := h.frames
  by_cases hnil : cut = []
  · subst hnil
    exact ⟨ready.response, ready.nextFragmentIndex, rfl, h.index_lt, rfl⟩
  · have hzero : ready.nextFragmentIndex = 0 := by
      have := h.index_lt
      rw [(herror hnil).2] at this
      omega
    rw [hzero, take_zero, append_nil]
    exact hcut

theorem answering_cancelledReady (hlane : LaneOk lane) (message : String) (h : Cut lane id frames) :
    Answering lane frames (cancelledReady id message) := by
  have hone := countOf_error hlane id .error .cancelled 0 message
  refine ⟨(length_encodeError_le ..).trans hlane.payload_ge, ?_, (Nat.zero_mul _).symm,
    ⟨frames, h, (append_nil _).symm, fun _ => ⟨rfl, hone⟩⟩⟩
  change 0 < countOf lane _
  rw [cancelledReady, hone]
  exact Nat.one_pos

theorem answering_first (hlane : LaneOk lane)
    (hpayload : ready.response.payload.length ≤ lane.limits.maxPayloadBytes)
    (hindex : ready.nextFragmentIndex = 0) (hoffset : ready.offset = 0) :
    Answering lane [] ready := by
  refine ⟨hpayload, ?_, ?_, ⟨[], cut_nil hlane _, ?_, fun hne => (hne rfl).elim⟩⟩
  · rw [hindex]
    exact countOf_pos hlane
  · rw [hoffset, hindex, Nat.zero_mul]
  · rw [hindex]
    rfl

theorem perm_cons_eraseP {l : List α} (h : l.find? p = some a) : l.Perm (a :: l.eraseP p) := by
  induction l with
  | nil => cases h
  | cons b l ih =>
    rw [find?_cons] at h
    cases hb : p b with
    | true =>
      rw [hb] at h
      cases h
      rw [eraseP_cons_of_pos hb]
    | false =>
      rw [hb] at h
      rw [eraseP_cons_of_neg (by simp [hb])]
      exact ((ih h).cons b).trans (List.Perm.swap _ _ _)

theorem takeFirst_spec (h : takeFirst p l = some (a, rest)) : l.Perm (a :: rest) ∧ p a = true := by
  obtain ⟨b, hfind, heq⟩ := Option.map_eq_some_iff.1 h
  cases heq
  exact ⟨perm_cons_eraseP hfind, find?_some hfind⟩

theorem takeNextQueued_spec (h : takeNextQueued queued burst = some (request, rest, burst')) :
    queued.Perm (request :: rest) := by
  rw [takeNextQueued] at h
  obtain ⟨⟨position, burst''⟩, -, h⟩ := Option.bind_eq_some_iff.1 h
  obtain ⟨request', hget, heq⟩ := Option.map_eq_some_iff.1 h
  cases heq
  obtain ⟨hlt, rfl⟩ := List.getElem?_eq_some_iff.1 hget
  exact (getElem_cons_eraseIdx_perm hlt).symm

theorem takeNextQueued_none (h : takeNextQueued queued burst = none) : queued = [] := by
  rw [takeNextQueued] at h
  have hlt {p : QueuedRpc → Bool} {i : Nat} (hfind : queued.findIdx? p = some i) :
      queued[i]? ≠ none := by
    rw [ne_eq, List.getElem?_eq_none_iff, not_le]
    exact (findIdx?_eq_some_iff_getElem.1 hfind).1
  cases hcontrol : queued.findIdx? (·.kind = .checkObjects) with
  | some control =>
    cases hbulk : queued.findIdx? (·.kind ≠ .checkObjects) with
    | some bulk =>
      simp only [hcontrol, hbulk] at h
      split_ifs at h
      · exact (hlt hcontrol (Option.map_eq_none_iff.1 h)).elim
      · exact (hlt hbulk (Option.map_eq_none_iff.1 h)).elim
    | none =>
      simp only [hcontrol, hbulk] at h
      exact (hlt hcontrol (Option.map_eq_none_iff.1 h)).elim
  | none =>
    cases hbulk : queued.findIdx? (·.kind ≠ .checkObjects) with
    | some bulk =>
      simp only [hcontrol, hbulk] at h
      exact (hlt hbulk (Option.map_eq_none_iff.1 h)).elim
    | none =>
      rw [findIdx?_eq_none_iff] at hcontrol hbulk
      rw [eq_nil_iff_forall_not_mem]
      intro request hrequest
      have hkind := of_decide_eq_false (hcontrol request hrequest)
      exact of_decide_eq_false (hbulk request hrequest) hkind

end Obsetync.DataLane
