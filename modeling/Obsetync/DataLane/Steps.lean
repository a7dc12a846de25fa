import Obsetync.DataLane.Books
import Obsetync.Fallible

namespace Obsetync.DataLane
open Fallible List

variable {lane : NegotiatedLane} {s s' : Session} {id : Nat}

theorem erase_active (h : Books lane s) (hmem : (id, RpcPhase.queued) ∈ s.places) :
    Assoc.erase s.active id = s.active := by
  apply Assoc.erase_of_find_none
  cases hfind : Assoc.find s.active id with
  | none => rfl
  | some rpc =>
    cases h.place_unique hmem (mem_places_active (Assoc.mem_of_find hfind))

theorem dispatchLoop_spec (fuel : Nat) (h : Books lane s) :
    ∃ s', dispatchLoop fuel s = .ok s' ∧ Books lane s' ∧ Advance lane s s' ∧
      work lane s' ≤ work lane s ∧ (s.queued.length ≤ fuel → s'.queued = [] ∨ s'.active ≠ []) := by
  induction fuel generalizing s with
  | zero =>
    refine ⟨s, rfl, h, .refl lane s, le_refl _, ?_⟩
    intro hfuel
    exact .inl (length_eq_zero_iff.1 (Nat.le_zero.1 hfuel))
  | succ fuel ih =>
    rw [dispatchLoop]
    by_cases hroom : s.active.length < maxRunningRequests
    · rw [if_pos hroom]
      cases htake : takeNextQueued s.queued s.controlDispatchBurst with
      | none => exact ⟨s, rfl, h, .refl lane s, le_refl _, fun _ => .inl (takeNextQueued_none htake)⟩
      | some next =>
        obtain ⟨request, queued, burst⟩ := next
        have hperm := takeNextQueued_spec htake
        have hlen := hperm.length_eq
        rw [length_cons] at hlen
        have hmem := mem_places_queued (hperm.mem_iff.2 mem_cons_self)
        have hsplit := perm_cons_erase hmem
        obtain ⟨admission, hmark, hsound, hphases⟩ := AdmissionLedger.markPhase_spec
          h.ledger (hsplit.symm.trans h.placed)
        dsimp only
        rw [AdmissionLedger.markRunning, hmark]
        have hactive := erase_active h hmem
        have hmoved := @Books.move _ _ { s with
          queued, controlDispatchBurst := burst, admission
          active := Assoc.set s.active request.requestId ⟨request, false⟩ } _ _ _ h
          hmem hsound hphases (by
            intro p
            have hcount := (hperm.map fun request => (request.requestId, RpcPhase.queued)).count_eq p
            simp only [map_cons, count_cons] at hcount
            simp only [Session.places, count_append, Assoc.set, hactive, map_cons,
              count_cons, count_nil, hcount]
            omega) rfl rfl (fun _ => nofun) (by
            simp only [Assoc.set, hactive, length_cons]
            omega) h.assembling (by
            intro entry hentry
            rw [Assoc.set, hactive] at hentry
            rcases mem_cons.1 hentry with rfl | hentry
            · rfl
            · exact h.active entry hentry) h.control h.bulk
        obtain ⟨s', hloop, hbooks, hadvance, hwork, hstarted⟩ := ih hmoved.1
        refine ⟨s', hloop, hbooks, hmoved.2.trans h hadvance, hwork.trans ?_, fun hfuel => ?_⟩
        · simp only [work, maxFragments, Assoc.set, hactive, length_cons, hlen]
          omega
        · exact hstarted (by dsimp only; omega)
    · rw [if_neg hroom]
      refine ⟨s, rfl, h, .refl lane s, le_refl _, fun _ => .inr ?_⟩
      intro hnil
      rw [hnil] at hroom
      exact hroom (by decide)

theorem dispatchQueued_spec (h : Books lane s) :
    ∃ s', dispatchQueued s = .ok s' ∧ Books lane s' ∧ Advance lane s s' ∧
      work lane s' ≤ work lane s ∧ Lively s' := by
  obtain ⟨s', hloop, hbooks, hadvance, hwork, hstarted⟩ := dispatchLoop_spec s.queued.length h
  refine ⟨s', hloop, hbooks, hadvance, hwork, ?_⟩
  rcases hstarted (le_refl _) with hnone | hsome
  · exact .inl hnone
  · exact .inr (.inl hsome)

theorem fine_dispatchQueued (h : Books lane s) (hbooks : Books lane s') (hadvance : Advance lane s s') :
    Fine lane s (dispatchQueued s') := by
  obtain ⟨s'', hloop, hbooks', hadvance', -, hlively⟩ := dispatchQueued_spec hbooks
  rw [hloop]
  exact .ok hbooks' (hadvance.trans h hadvance') fun _ => hlively

theorem fine_cancelAssembling (hlane : LaneOk lane) (h : Books lane s)
    (hmem : (id, RpcPhase.assembling) ∈ s.places) : Fine lane s (cancelAssembling s id) := by
  obtain ⟨reassembly, hentry⟩ := mem_assembling_of_place hmem
  have hfind := Assoc.find_of_mem h.nodup_assembling hentry
  have hperm := Assoc.perm_of_find h.nodup_assembling hfind
  obtain ⟨admission, hmark, hsound, hphases⟩ := AdmissionLedger.markSending_spec h.ledger
    ((perm_cons_erase hmem).symm.trans h.placed)
  rw [cancelAssembling, hfind]
  dsimp only
  rw [hmark]
  have hmoved := @Books.move _ _ { s with
    assembling := Assoc.erase s.assembling id
    admission
    controlReady := cancelledReady id "request cancelled during reassembly" :: s.controlReady } _ _ _ h
    hmem hsound hphases (by
      intro p
      have hcount := (hperm.map fun entry => (entry.1, RpcPhase.assembling)).count_eq p
      simp only [map_cons, count_cons] at hcount
      simp only [Session.places, count_append, map_cons, count_cons, count_nil,
        hcount, cancelledReady]
      omega) rfl rfl (fun hne => (hne rfl).elim) h.running (by
      intro entry hentry
      exact h.assembling entry (mem_of_mem_filter hentry)) h.active (by
      intro ready hready
      rcases mem_cons.1 hready with rfl | hready
      · change Answering lane (s.history id) _
        rw [h.silent id _ hmem (by rintro ⟨⟩)]
        exact answering_cancelledReady hlane _ (cut_nil hlane id)
      · exact h.control ready hready) h.bulk
  exact .ok hmoved.1 hmoved.2 fun _ => .inr (.inr (.inl (cons_ne_nil _ _)))

theorem fine_cancelQueued (hlane : LaneOk lane) (h : Books lane s)
    (hmem : (id, RpcPhase.queued) ∈ s.places) : Fine lane s (cancelQueued s id) := by
  obtain ⟨request, hrequest, hid⟩ := mem_queued_of_place hmem
  obtain ⟨⟨request', queued⟩, htake⟩ : ∃ found, takeQueued s.queued id = some found := by
    rw [← Option.isSome_iff_exists, takeQueued, takeFirst, Option.isSome_map, find?_isSome]
    exact ⟨request, hrequest, decide_eq_true hid⟩
  obtain ⟨hperm, hid'⟩ := takeFirst_spec htake
  have hid' := of_decide_eq_true hid'
  obtain ⟨admission, hmark, hsound, hphases⟩ := AdmissionLedger.markSending_spec h.ledger
    ((perm_cons_erase hmem).symm.trans h.placed)
  rw [cancelQueued, htake]
  dsimp only
  rw [hmark]
  have hmoved := @Books.move _ _ { s with
    queued
    admission
    controlReady := cancelledReady id "request cancelled before storage dispatch" ::
      s.controlReady } _ _ _ h hmem hsound hphases (by
      intro p
      have hcount := (hperm.map fun request => (request.requestId, RpcPhase.queued)).count_eq p
      simp only [map_cons, count_cons, hid'] at hcount
      simp only [Session.places, count_append, map_cons, count_cons, count_nil,
        hcount, cancelledReady]
      omega) rfl rfl (fun hne => (hne rfl).elim) h.running h.assembling h.active (by
      intro ready hready
      rcases mem_cons.1 hready with rfl | hready
      · change Answering lane (s.history id) _
        rw [h.silent id _ hmem (by rintro ⟨⟩)]
        exact answering_cancelledReady hlane _ (cut_nil hlane id)
      · exact h.control ready hready) h.bulk
  exact .ok hmoved.1 hmoved.2 fun _ => .inr (.inr (.inl (cons_ne_nil _ _)))

theorem Books.place_sending (h : Books lane s) (hmem : (id, RpcPhase.sending) ∈ s.places) :
    ((id, RpcPhase.sending) :: s.places.erase (id, .sending)).Perm s.admission.phases :=
  (perm_cons_erase hmem).symm.trans h.placed

theorem fine_cancelReady (hlane : LaneOk lane) (h : Books lane s) :
    Fine lane s (.ok (cancelReady s id)) := by
  rw [cancelReady]
  cases hbulk : takeReady s.bulkReady id with
  | some found =>
    obtain ⟨ready, bulkReady⟩ := found
    obtain ⟨hperm, hid⟩ := takeFirst_spec hbulk
    have hid := of_decide_eq_true hid
    have hready := hperm.mem_iff.2 mem_cons_self
    have hmem : (id, RpcPhase.sending) ∈ s.places := hid ▸ mem_places_bulk hready
    have hmoved := @Books.move _ _ { s with
      bulkReady
      controlReady := cancelledReady id "request cancelled during response" :: s.controlReady } _ _ _ h
      hmem h.ledger (h.place_sending hmem) (by
        intro p
        have hcount := (hperm.map fun ready => (ready.response.requestId,
          RpcPhase.sending)).count_eq p
        simp only [map_cons, count_cons, hid] at hcount
        simp only [Session.places, count_append, map_cons, count_cons,
          count_nil, hcount, cancelledReady]
        omega) rfl rfl (fun hne => (hne rfl).elim) h.running h.assembling h.active (by
        intro ready' hready'
        rcases mem_cons.1 hready' with rfl | hready'
        · exact answering_cancelledReady hlane _ (hid ▸ (h.bulk ready hready).cut)
        · exact h.control ready' hready') (by
        intro ready' hready'
        exact h.bulk ready' (hperm.mem_iff.2 (mem_cons_of_mem _ hready')))
    exact .ok hmoved.1 hmoved.2 fun _ => .inr (.inr (.inl (cons_ne_nil _ _)))
  | none =>
    cases hcontrol : takeReady s.controlReady id with
    | none => exact .ok h (.refl lane s) fun hlively => hlively
    | some found =>
      obtain ⟨ready, controlReady⟩ := found
      obtain ⟨hperm, hid⟩ := takeFirst_spec hcontrol
      have hid := of_decide_eq_true hid
      have hready := hperm.mem_iff.2 mem_cons_self
      have hmem : (id, RpcPhase.sending) ∈ s.places := hid ▸ mem_places_control hready
      have hmoved := @Books.move _ _ { s with
        controlReady := cancelledReady id "request cancelled during response" :: controlReady } _ _ _ h
        hmem h.ledger (h.place_sending hmem) (by
          intro p
          have hcount := (hperm.map fun ready => (ready.response.requestId,
            RpcPhase.sending)).count_eq p
          simp only [map_cons, count_cons, hid] at hcount
          simp only [Session.places, count_append, map_cons, count_cons,
            count_nil, hcount, cancelledReady]) rfl rfl (fun hne => (hne rfl).elim) h.running
        h.assembling h.active (by
          intro ready' hready'
          rcases mem_cons.1 hready' with rfl | hready'
          · exact answering_cancelledReady hlane _ (hid ▸ (h.control ready hready).cut)
          · exact h.control ready' (hperm.mem_iff.2 (mem_cons_of_mem _ hready'))) h.bulk
      exact .ok hmoved.1 hmoved.2 fun _ => .inr (.inr (.inl (cons_ne_nil _ _)))

theorem fine_cancelRequest (hlane : LaneOk lane) (h : Books lane s) :
    Fine lane s (cancelRequest s id) := by
  rw [cancelRequest]
  by_cases hassembling : s.admission.isIn id .assembling = true
  · rw [if_pos hassembling]
    exact fine_cancelAssembling hlane h
      (h.placed.mem_iff.2 ((AdmissionLedger.isIn_iff h.ledger).1 hassembling))
  · rw [if_neg hassembling]
    by_cases hqueued : s.admission.isIn id .queued = true
    · rw [if_pos hqueued]
      exact fine_cancelQueued hlane h
        (h.placed.mem_iff.2 ((AdmissionLedger.isIn_iff h.ledger).1 hqueued))
    · rw [if_neg hqueued]
      cases hfind : Assoc.find s.active id with
      | none => exact fine_cancelReady hlane h
      | some rpc =>
        have hperm := Assoc.perm_of_find h.nodup_active hfind
        have hentry := Assoc.mem_of_find hfind
        have hmem := mem_places_active hentry
        have hlen := hperm.length_eq
        have hmoved := @Books.move _ _ { s with
          active := Assoc.set s.active id { rpc with cancelRequested := true } } _ _ _ h hmem h.ledger
          ((perm_cons_erase hmem).symm.trans h.placed) (by
            intro p
            have hcount := (hperm.map fun entry => (entry.1, RpcPhase.running)).count_eq p
            simp only [map_cons, count_cons] at hcount
            simp only [Session.places, count_append, Assoc.set, map_cons,
              count_cons, count_nil, hcount]) rfl rfl (fun _ => nofun) (by
            have := h.running
            simp only [length_cons] at hlen
            simp only [Assoc.set, length_cons]
            omega) h.assembling (by
            intro entry hentry'
            rcases mem_cons.1 hentry' with rfl | hentry'
            · exact h.active (id, rpc) hentry
            · exact h.active entry (mem_of_mem_filter hentry')) h.control h.bulk
        exact .ok hmoved.1 hmoved.2 fun _ => .inr (.inl (cons_ne_nil _ _))

theorem honorCancel_requestId :
    (honorCancel response cancelled).requestId = response.requestId := by
  rw [honorCancel]
  split_ifs <;> rfl

theorem executeRpc_requestId : (executeRpc request result n).requestId = request.requestId := by
  cases result with
  | error => rfl
  | ok payload =>
    rw [executeRpc]
    split_ifs <;> rfl

theorem length_response_le (hlane : LaneOk lane) (request : QueuedRpc)
    (result : Except ServerError Bytes) (cancelled : Bool) :
    (honorCancel (executeRpc request result lane.limits.maxPayloadBytes) cancelled).payload.length ≤
      lane.limits.maxPayloadBytes := by
  have herror (code : ErrorCode) (retry : Nat) (message : String) :
      (encodeError code retry message).length ≤ lane.limits.maxPayloadBytes :=
    (length_encodeError_le code retry message).trans hlane.payload_ge
  rw [honorCancel]
  split_ifs
  · exact herror _ _ _
  · cases result with
    | error error => cases error <;> exact herror _ _ _
    | ok payload =>
      rw [executeRpc]
      split_ifs with hle
      · exact hle
      · exact herror _ _ _

theorem Books.responded (hlane : LaneOk lane) (h : Books lane s) {rpc : ActiveRpc}
    (hfind : Assoc.find s.active id = some rpc) {response : RpcResponse}
    {priority : OutboundPriority} {controlReady bulkReady : List ReadyRpc}
    (hid : response.requestId = id)
    (hpayload : response.payload.length ≤ lane.limits.maxPayloadBytes)
    (hready : (controlReady ++ bulkReady).Perm
      (⟨response, priority, 0, 0⟩ :: (s.controlReady ++ s.bulkReady))) :
    ∃ admission, s.admission.markSending id = .ok admission ∧ Gains lane s (.ok { s with
        active := Assoc.erase s.active id, admission, controlReady, bulkReady }) := by
  have hperm := Assoc.perm_of_find h.nodup_active hfind
  have hmem := mem_places_active (Assoc.mem_of_find hfind)
  have hlen := hperm.length_eq
  rw [length_cons] at hlen
  have hrunning := h.running
  obtain ⟨admission, hmark, hsound, hphases⟩ := AdmissionLedger.markSending_spec h.ledger
    ((perm_cons_erase hmem).symm.trans h.placed)
  have hanswer : ∀ ready ∈ controlReady ++ bulkReady,
      Answering lane (s.history ready.response.requestId) ready := by
    intro ready hin
    rcases mem_cons.1 (hready.mem_iff.1 hin) with rfl | hold
    · change Answering lane (s.history response.requestId) _
      rw [hid, h.silent id _ hmem nofun]
      exact answering_first hlane hpayload rfl rfl
    · rcases mem_append.1 hold with hold | hold
      · exact h.control ready hold
      · exact h.bulk ready hold
  obtain ⟨hbooks, hadvance⟩ := @Books.move _ _ { s with
    active := Assoc.erase s.active id, admission, controlReady, bulkReady } _ _ _ h hmem hsound hphases (by
      intro p
      have hcount := (hperm.map fun entry => (entry.1, RpcPhase.running)).count_eq p
      have hcount' := (hready.map fun ready => (ready.response.requestId,
        RpcPhase.sending)).count_eq p
      simp only [map_cons, map_append, count_append, count_cons, hid] at hcount hcount'
      simp only [Session.places, count_append, count_cons, count_nil, hcount]
      omega) rfl rfl (fun hne => (hne rfl).elim) (by dsimp only; omega) h.assembling (by
      intro entry hentry
      exact h.active entry (mem_of_mem_filter hentry))
    (fun ready hin => hanswer ready (mem_append_left _ hin))
    fun ready hin => hanswer ready (mem_append_right _ hin)
  refine ⟨admission, hmark, _, rfl, hbooks, hadvance, ?_, ?_⟩
  · have hsum := (hready.map (remaining lane)).sum_eq
    have hcount := countOf_le hlane hpayload
    simp only [map_append, map_cons, sum_append, sum_cons] at hsum
    change _ = countOf lane response - 0 + _ at hsum
    simp only [work, hlen]
    rw [maxFragments] at hcount ⊢
    omega
  · rcases mem_append.1 (hready.mem_iff.2 mem_cons_self) with hin | hin
    · exact .inr (.inr (.inl (ne_nil_of_mem hin)))
    · exact .inr (.inr (.inr (ne_nil_of_mem hin)))

theorem gains_complete (hlane : LaneOk lane) (h : Books lane s)
    (hfind : Assoc.find s.active id = some rpc) (result : Except ServerError Bytes) :
    Gains lane s (complete lane s id result) := by
  rw [complete, hfind]
  dsimp only
  generalize hresponse : honorCancel (executeRpc rpc.request result lane.limits.maxPayloadBytes)
    rpc.cancelRequested = response
  have hid : response.requestId = id := by
    rw [← hresponse, honorCancel_requestId, executeRpc_requestId]
    exact h.active (id, rpc) (Assoc.mem_of_find hfind)
  have hpayload : response.payload.length ≤ lane.limits.maxPayloadBytes :=
    hresponse ▸ length_response_le hlane rpc.request result rpc.cancelRequested
  rw [hid]
  cases responsePriority response.kind rpc.cancelRequested with
  | urgent =>
    obtain ⟨admission, hmark, hgains⟩ := (@Books.responded _ _ _ hlane h _ hfind _ _ (⟨response, .urgent, 0, 0⟩ :: s.controlReady)) hid hpayload (.refl _)
    rw [hmark]
    exact hgains
  | control =>
    obtain ⟨admission, hmark, hgains⟩ := (@Books.responded _ _ _ hlane h _ hfind _ _ (s.controlReady ++ [⟨response, .control, 0, 0⟩])) hid hpayload (by
        rw [append_assoc]
        exact perm_middle)
    rw [hmark]
    exact hgains
  | bulk =>
    obtain ⟨admission, hmark, hgains⟩ := h.responded hlane hfind hid hpayload (by
        rw [← append_assoc]
        exact perm_append_singleton _ _)
    rw [hmark]
    exact hgains

theorem fine_complete (hlane : LaneOk lane) (h : Books lane s) (result : Except ServerError Bytes) :
    Fine lane s (complete lane s id result) := by
  cases hfind : Assoc.find s.active id with
  | some rpc => exact (gains_complete hlane h hfind result).fine
  | none =>
    rw [complete, hfind]
    exact .ok h (.refl lane s) fun hlively => hlively

theorem history_append (hsent : s'.sent = s.sent ++ [fragment]) (id : Nat) :
    s'.history id = if fragment.requestId = id then s.history id ++ [fragment] else s.history id := by
  rw [Session.history, hsent, filter_append, filter_singleton]
  by_cases h : fragment.requestId = id
  · rw [if_pos h, decide_eq_true h]
    rfl
  · rw [if_neg h, decide_eq_false h]
    exact append_nil _

theorem Answering.next {frames : List Fragment} {ready : ReadyRpc} {offset : Nat}
    (h : Answering lane frames ready)
    (hmore : ready.nextFragmentIndex + 1 < countOf lane ready.response)
    (hoffset : offset = (ready.nextFragmentIndex + 1) * lane.maxFragmentPayloadBytes) :
    Answering lane (frames ++ [fragmentAt lane ready.response ready.nextFragmentIndex])
      { ready with offset, nextFragmentIndex := ready.nextFragmentIndex + 1 } := by
  obtain ⟨cut, hcut, rfl, herror⟩ := h.frames
  refine ⟨h.payload_le, hmore, hoffset, ⟨cut, hcut, ?_, herror⟩⟩
  rw [append_assoc, ← take_responseFragments_succ h.index_lt]

theorem Answering.last {frames : List Fragment} (h : Answering lane frames ready)
    (hlast : ready.nextFragmentIndex + 1 = countOf lane ready.response) :
    Answered lane ready.response.requestId
      (frames ++ [fragmentAt lane ready.response ready.nextFragmentIndex]) := by
  obtain ⟨cut, hcut, rfl, herror⟩ := h.frames
  refine ⟨cut, ready.response, hcut, rfl, ?_, herror⟩
  rw [append_assoc, ← take_responseFragments_succ h.index_lt, hlast,
    ← length_responseFragments, take_length]

theorem Books.nodup_ready (h : Books lane s) :
    ((s.controlReady ++ s.bulkReady).map fun ready => ready.response.requestId).Nodup := by
  have hnodup := h.nodup_places
  rw [Session.places, append_assoc, map_append] at hnodup
  have hready := (nodup_append.1 hnodup).2.1
  rwa [← map_append, map_map] at hready

theorem Books.ready (h : Books lane s) {ready : ReadyRpc} (hmem : ready ∈ s.controlReady ++ s.bulkReady) :
    Answering lane (s.history ready.response.requestId) ready ∧
      (ready.response.requestId, RpcPhase.sending) ∈ s.places := by
  rcases mem_append.1 hmem with hmem | hmem
  · exact ⟨h.control ready hmem, mem_places_control hmem⟩
  · exact ⟨h.bulk ready hmem, mem_places_bulk hmem⟩

theorem Books.sent_fragment (h : Books lane s) {fragment : Fragment} (hid : fragment.requestId = id)
    (hmem : (id, RpcPhase.sending) ∈ s.places) (hsent : s'.sent = s.sent ++ [fragment])
    (hlast : s'.lastRequestId = s.lastRequestId) (hassembling : s'.assembling = s.assembling)
    (hactive : s'.active = s.active) (hledger : s'.admission.Sound lane.limits)
    (hplaced : s'.places.Perm s'.admission.phases) (hsub : ∀ p ∈ s'.places, p ∈ s.places)
    (hids : ∀ id' ∈ s.ids, id' ≠ id → id' ∈ s'.ids)
    (hanswer : id ∈ s'.ids ∨ id ∉ s'.ids ∧ Answered lane id (s.history id ++ [fragment]))
    (hready : ∀ r ∈ s'.controlReady ++ s'.bulkReady, r.response.requestId = id ∧
      Answering lane (s.history id ++ [fragment]) r ∨
        r ∈ s.controlReady ++ s.bulkReady ∧ r.response.requestId ≠ id) :
    Books lane s' ∧ Advance lane s s' := by
  have hsame : s'.history id = s.history id ++ [fragment] := by
    rw [history_append hsent, if_pos hid]
  have hother {id' : Nat} (hne : id' ≠ id) : s'.history id' = s.history id' := by
    rw [history_append hsent, if_neg fun heq => hne (heq.symm.trans hid)]
  have hback {id' : Nat} (hin : id' ∈ s'.ids) : id' ∈ s.ids := by
    obtain ⟨p, hp, rfl⟩ := mem_map.1 hin
    exact h.mem_ids (hsub p (hplaced.mem_iff.2 hp))
  have hheld := h.mem_ids hmem
  have hanswering : ∀ r ∈ s'.controlReady ++ s'.bulkReady,
      Answering lane (s'.history r.response.requestId) r := by
    intro r hr
    rcases hready r hr with ⟨heq, hnext⟩ | ⟨hr, hne⟩
    · rw [heq, hsame]
      exact hnext
    · rw [hother hne]
      exact (h.ready hr).1
  refine ⟨⟨hledger, hplaced, ?_, ?_, ?_, ?_, fun r hr => hanswering r (mem_append_left _ hr),
    fun r hr => hanswering r (mem_append_right _ hr), ?_, ?_⟩, ⟨hlast.ge, ?_, ?_⟩⟩
  · rw [hactive]
    exact h.running
  · rw [hassembling]
    exact h.assembling
  · rw [hactive]
    exact h.active
  · intro id' hid'
    rw [hlast]
    exact h.last id' (hback hid')
  · intro id' phase hplace hphase
    have hplace := hsub _ hplace
    have hne : id' ≠ id := by
      rintro rfl
      exact hphase (h.place_unique hplace hmem)
    rw [hother hne]
    exact h.silent id' phase hplace hphase
  · intro id' hlt
    rw [hlast] at hlt
    have hne : id' ≠ id := by
      rintro rfl
      exact (h.last id' hheld).not_gt hlt
    rw [hother hne]
    exact h.unseen id' hlt
  · intro id' hid'
    by_cases hne : id' = id
    · rw [hne, hsame]
      exact hanswer
    · exact .inl (hids id' hid' hne)
  · intro id' _ hout
    have hne : id' ≠ id := by
      rintro rfl
      exact hout hheld
    exact ⟨fun hin => hout (hback hin), hother hne⟩

theorem Books.finish (h : Books lane s) (hplaces : s.places.Perm ((id, .sending) :: s'.places)) :
    ∃ admission, s.admission.finish id = .ok admission ∧ admission.Sound lane.limits ∧
      s'.places.Perm admission.phases ∧ id ∉ admission.phases.map Prod.fst ∧
      ∀ id' ∈ s.ids, id' ≠ id → id' ∈ admission.phases.map Prod.fst := by
  obtain ⟨admission, hfinish, hsound, hperm⟩ :=
    AdmissionLedger.finish_spec h.ledger (hplaces.symm.trans h.placed)
  have hids := (hplaces.symm.trans h.placed).map Prod.fst
  have hnodup := hids.nodup_iff.2 h.ledger.distinct
  refine ⟨admission, hfinish, hsound, hperm, ?_, ?_⟩
  · rw [← (hperm.map Prod.fst).mem_iff]
    exact (nodup_cons.1 hnodup).1
  · intro id' hid' hne
    rw [← (hperm.map Prod.fst).mem_iff]
    rcases mem_cons.1 (hids.mem_iff.2 hid') with heq | hin
    · exact (hne heq).elim
    · exact hin

theorem gains_sendHead (hlane : LaneOk lane) (h : Books lane s) {request : ReadyRpc}
    {rest others : List ReadyRpc} (put : List ReadyRpc → List ReadyRpc × List ReadyRpc) (burst : ReadyRpc → Nat)
    (hput : ∀ queue, ((put queue).1 ++ (put queue).2).Perm (queue ++ others))
    (hqueue : (s.controlReady, s.bulkReady) = put (request :: rest)) : Gains lane s (do
      let (request, fragment, completed) ← sendReadyHead lane request
      let s := { s with sent := s.sent ++ [fragment], controlFragmentBurst := burst request }
      if completed then
        let admission ← s.admission.finish request.response.requestId
        dispatchQueued { s with controlReady := (put rest).1, bulkReady := (put rest).2, admission }
      else return { s with
        controlReady := (put (request :: rest)).1, bulkReady := (put (request :: rest)).2 }) := by
  have hall : (s.controlReady ++ s.bulkReady).Perm (request :: (rest ++ others)) := by
    have hperm := hput (request :: rest)
    rwa [← hqueue] at hperm
  obtain ⟨hanswering, hplace⟩ := h.ready (hall.mem_iff.2 mem_cons_self)
  have hrest : ∀ r ∈ rest ++ others, r ∈ s.controlReady ++ s.bulkReady ∧
      r.response.requestId ≠ request.response.requestId := by
    have hnodup := (hall.map fun ready => ready.response.requestId).nodup_iff.1 h.nodup_ready
    intro r hr
    exact ⟨hall.mem_iff.2 (mem_cons_of_mem _ hr), fun heq =>
      (nodup_cons.1 hnodup).1 (mem_map.2 ⟨r, hr, heq⟩)⟩
  -- the places and the work left depend on the two queues only as a multiset
  have hcount (p : Nat × RpcPhase) :=
    (hall.map fun ready => (ready.response.requestId, RpcPhase.sending)).count_eq p
  have hsum := (hall.map (remaining lane)).sum_eq
  simp only [map_append, map_cons, count_append, count_cons, sum_append, sum_cons] at hcount hsum
  obtain ⟨offset, hsend, hoffset⟩ := sendReadyHead_spec hlane hanswering.payload_le
    hanswering.index_lt hanswering.offset
  have hfragment := @requestId_fragmentAt lane request.response request.nextFragmentIndex
  rw [hsend]
  change Gains lane s (if decide (request.nextFragmentIndex + 1 = countOf lane request.response) then
    _ else _)
  by_cases hlast : request.nextFragmentIndex + 1 = countOf lane request.response
  · rw [if_pos (decide_eq_true hlast)]
    have hcount' (p : Nat × RpcPhase) :=
      ((hput rest).map fun ready => (ready.response.requestId, RpcPhase.sending)).count_eq p
    have hsum' := ((hput rest).map (remaining lane)).sum_eq
    simp only [map_append, count_append, sum_append] at hcount' hsum'
    have hplaces : s.places.Perm ((request.response.requestId, .sending) ::
        Session.places { s with controlReady := (put rest).1, bulkReady := (put rest).2 }) := by
      rw [perm_iff_count]
      intro p
      have := hcount p
      have := hcount' p
      simp only [Session.places, count_append, count_cons]
      omega
    obtain ⟨admission, hfinish, hsound, hplaced, hout, hids⟩ := h.finish hplaces
    rw [hfinish]
    obtain ⟨hbooks, hadvance⟩ := (@Books.sent_fragment _ _ { s with
      sent := s.sent ++ [fragmentAt lane request.response request.nextFragmentIndex]
      controlFragmentBurst := burst { request with
        offset, nextFragmentIndex := request.nextFragmentIndex + 1 }
      controlReady := (put rest).1, bulkReady := (put rest).2
      admission } _ h) hfragment hplace rfl rfl rfl rfl hsound hplaced
      (fun p hp => hplaces.mem_iff.2 (mem_cons_of_mem _ hp)) hids
      (.inr ⟨hout, hanswering.last hlast⟩) (fun r hr => .inr (hrest r ((hput rest).mem_iff.1 hr)))
    obtain ⟨s', hdispatch, hbooks', hadvance', hwork, hlively⟩ := dispatchQueued_spec hbooks
    refine ⟨s', hdispatch, hbooks', hadvance.trans h hadvance', hwork.trans_lt ?_, hlively⟩
    have hleft : remaining lane request = 1 := by
      rw [remaining]
      omega
    simp only [work]
    omega
  · rw [if_neg (by simpa using hlast)]
    have hmore : request.nextFragmentIndex + 1 < countOf lane request.response :=
      lt_of_le_of_ne hanswering.index_lt hlast
    generalize hnext : { request with
      offset, nextFragmentIndex := request.nextFragmentIndex + 1 } = next
    have hid : next.response.requestId = request.response.requestId := by rw [← hnext]
    have hleft : remaining lane next < remaining lane request := by
      rw [← hnext, remaining, remaining]
      dsimp only
      omega
    have hperm := hput (next :: rest)
    have hcount' (p : Nat × RpcPhase) :=
      (hperm.map fun ready => (ready.response.requestId, RpcPhase.sending)).count_eq p
    have hsum' := (hperm.map (remaining lane)).sum_eq
    simp only [map_append, cons_append, map_cons, count_append, count_cons,
      sum_append, sum_cons, hid] at hcount' hsum'
    have hplaces : (Session.places { s with
        controlReady := (put (next :: rest)).1, bulkReady := (put (next :: rest)).2 }).Perm s.places := by
      rw [perm_iff_count]
      intro p
      have := hcount p
      have := hcount' p
      simp only [Session.places, count_append]
      omega
    obtain ⟨hbooks, hadvance⟩ := (@Books.sent_fragment _ _ { s with
      sent := s.sent ++ [fragmentAt lane request.response request.nextFragmentIndex]
      controlFragmentBurst := burst next
      controlReady := (put (next :: rest)).1, bulkReady := (put (next :: rest)).2 } _ h)
      hfragment hplace rfl rfl rfl rfl h.ledger (hplaces.trans h.placed) (fun p hp => hplaces.mem_iff.1 hp)
      (fun _ hid _ => hid) (.inl (h.mem_ids hplace)) (by
        intro r hr
        rcases mem_cons.1 (hperm.mem_iff.1 hr) with rfl | hr
        · exact .inl ⟨hid, hnext ▸ hanswering.next hmore (hoffset hmore)⟩
        · exact .inr (hrest r hr))
    refine ⟨_, rfl, hbooks, hadvance, ?_, ?_⟩
    · simp only [work]
      omega
    · rcases mem_append.1 (hperm.mem_iff.2 mem_cons_self) with hin | hin
      · exact .inr (.inr (.inl (ne_nil_of_mem hin)))
      · exact .inr (.inr (.inr (ne_nil_of_mem hin)))

theorem gains_sendControl (hlane : LaneOk lane) (h : Books lane s) (hne : s.controlReady ≠ []) :
    Gains lane s (sendControl lane s) := by
  obtain ⟨request, rest, hqueue⟩ := exists_cons_of_ne_nil hne
  rw [sendControl, hqueue]
  exact gains_sendHead hlane h (·, s.bulkReady) (fun request => if request.priority = .control then
    min (s.controlFragmentBurst + 1) maxControlFragmentBurst else s.controlFragmentBurst)
    (fun queue => .refl (queue ++ s.bulkReady)) (congrArg (·, s.bulkReady) hqueue)

theorem gains_sendBulk (hlane : LaneOk lane) (h : Books lane s) (hne : s.bulkReady ≠ []) :
    Gains lane s (sendBulk lane s) := by
  obtain ⟨request, rest, hqueue⟩ := exists_cons_of_ne_nil hne
  rw [sendBulk, hqueue]
  exact gains_sendHead hlane h (s.controlReady, ·) (fun _ => 0)
    (fun _ => perm_append_comm) (congrArg (s.controlReady, ·) hqueue)

theorem gains_send (hlane : LaneOk lane) (h : Books lane s) (hnext : s.nextOutbound ≠ none) :
    Gains lane s (s.step lane .send) := by
  rw [Session.step]
  cases hchoice : s.nextOutbound with
  | none => exact (hnext hchoice).elim
  | some choice =>
    cases choice with
    | control =>
      apply gains_sendControl hlane h
      intro hnil
      rw [Session.nextOutbound, nextOutboundLane, hnil] at hchoice
      simp at hchoice
    | bulk =>
      apply gains_sendBulk hlane h
      intro hnil
      rw [Session.nextOutbound, nextOutboundLane, hnil] at hchoice
      simp at hchoice
      split_ifs at hchoice <;> cases hchoice

theorem fine_send (hlane : LaneOk lane) (h : Books lane s) : Fine lane s (s.step lane .send) := by
  by_cases hnext : s.nextOutbound = none
  · rw [Session.step, hnext]
    exact .ok h (.refl lane s) fun hlively => hlively
  · exact (gains_send hlane h hnext).fine

end Obsetync.DataLane
