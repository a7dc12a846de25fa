import Obsetync.DataLane.Steps

namespace Obsetync.DataLane
open Fallible List

variable {lane : NegotiatedLane} {s s' : Session} {id : Nat}

theorem Books.enter {phase : RpcPhase} (h : Books lane s) (hnew : s.lastRequestId < id)
    (hledger : s'.admission.Sound lane.limits)
    (hphases : ((id, phase) :: s.places).Perm s'.admission.phases)
    (hplaces : s'.places.Perm ((id, phase) :: s.places)) (hsent : s'.sent = s.sent)
    (hlast : s'.lastRequestId = id) (hactive : s'.active = s.active)
    (hcontrol : s'.controlReady = s.controlReady) (hbulk : s'.bulkReady = s.bulkReady)
    (hassembling : ∀ entry ∈ s'.assembling, entry.2.requestId = entry.1) :
    Books lane s' ∧ Advance lane s s' := by
  have hhistory : s'.history = s.history := by
    funext id
    rw [Session.history, Session.history, hsent]
  have hids : s'.ids.Perm (id :: s.ids) :=
    (hphases.map Prod.fst).symm.trans ((h.placed.map Prod.fst).cons id)
  refine ⟨⟨hledger, hplaces.trans hphases, ?_, hassembling, ?_, ?_, ?_, ?_, ?_, ?_⟩,
    ⟨hlast ▸ hnew.le, ?_, ?_⟩⟩
  · rw [hactive]
    exact h.running
  · rw [hactive]
    exact h.active
  · intro id' hid'
    rw [hlast]
    rcases mem_cons.1 (hids.mem_iff.1 hid') with rfl | hin
    · exact le_refl _
    · exact (h.last id' hin).trans hnew.le
  · rw [hcontrol, hhistory]
    exact h.control
  · rw [hbulk, hhistory]
    exact h.bulk
  · intro id' phase' hplace hne
    rw [hhistory]
    rcases mem_cons.1 (hplaces.mem_iff.1 hplace) with heq | hin
    · cases heq
      exact h.unseen id hnew
    · exact h.silent id' phase' hin hne
  · intro id' hid'
    rw [hlast] at hid'
    rw [hhistory]
    exact h.unseen id' (hnew.trans hid')
  · intro id' hid'
    exact .inl (hids.mem_iff.2 (mem_cons_of_mem _ hid'))
  · intro id' hle hout
    rw [hhistory]
    refine ⟨fun hin => ?_, rfl⟩
    rcases mem_cons.1 (hids.mem_iff.1 hin) with rfl | hin
    · omega
    · exact hout hin

theorem Books.turned_away (h : Books lane s) (hnew : s.lastRequestId < id)
    (hid : fragment.requestId = id) (rejected : List (Nat × RejectedReassembly)) :
    Books lane { s with rejected, lastRequestId := id, sent := s.sent ++ [fragment] } ∧
      Advance lane s { s with rejected, lastRequestId := id, sent := s.sent ++ [fragment] } := by
  have hother {id' : Nat} (hne : id' ≠ id) :
      Session.history { s with rejected, lastRequestId := id, sent := s.sent ++ [fragment] } id' =
        s.history id' := by
    rw [history_append rfl, if_neg fun heq => hne (heq.symm.trans hid)]
  have hheld {id' : Nat} (hin : id' ∈ s.ids) : id' ≠ id := by
    rintro rfl
    exact (h.last id' hin).not_gt hnew
  refine ⟨⟨h.ledger, h.placed, h.running, h.assembling, h.active, ?_, ?_, ?_, ?_, ?_⟩,
    ⟨hnew.le, fun _ hin => .inl hin, ?_⟩⟩
  · intro id' hin
    exact (h.last id' hin).trans hnew.le
  · intro ready hready
    rw [hother (hheld (h.mem_ids (mem_places_control hready)))]
    exact h.control ready hready
  · intro ready hready
    rw [hother (hheld (h.mem_ids (mem_places_bulk hready)))]
    exact h.bulk ready hready
  · intro id' phase hplace hne
    rw [hother (hheld (h.mem_ids hplace))]
    exact h.silent id' phase hplace hne
  · intro id' hlt
    rw [hother hlt.ne']
    exact h.unseen id' (hnew.trans hlt)
  · intro id' hle hout
    exact ⟨hout, hother (by omega)⟩

theorem fine_sendBusy (h : Books lane s) (hnew : s.lastRequestId < id)
    (rejected : List (Nat × RejectedReassembly)) :
    Fine lane s (sendBusy lane id { s with rejected, lastRequestId := id }) := by
  have hframe {kind : FrameType} {payload : Bytes} {n : Nat} {fragment : Fragment}
      (hf : encodeFrame kind id payload n = some fragment) : fragment.requestId = id := by
    rw [encodeFrame] at hf
    split_ifs at hf
    cases hf
    rfl
  have hfragment {input fragment : Fragment} {n m : Nat} (hf : encodeFragment input n m = some fragment) :
      fragment = input := by
    rw [encodeFragment] at hf
    split_ifs at hf
    cases hf
    rfl
  rw [sendBusy, sendLogicalFrame]
  dsimp only
  split
  · exact fine_closed _
  · next fragment heq =>
    have hid : fragment.requestId = id := by
      cases hwire : lane.wire with
      | v1 =>
        rw [hwire] at heq
        exact hframe heq
      | v2 =>
        rw [hwire] at heq
        dsimp only at heq
        split_ifs at heq
        rw [hfragment heq]
    obtain ⟨hbooks, hadvance⟩ := h.turned_away hnew hid rejected
    exact .ok hbooks hadvance fun hlively => hlively

theorem fine_bind {x : Except Stop α} (hx : ∀ message, x ≠ .error (.panicked message))
    (hf : ∀ a, x = .ok a → Fine lane s (f a)) : Fine lane s (x >>= f) := by
  cases x with
  | error stop =>
    refine ⟨?_, nofun⟩
    rintro message ⟨⟩
    exact hx message rfl
  | ok a => exact hf a rfl

theorem erase_assembling (h : Books lane s) (hnew : s.lastRequestId < id) :
    Assoc.erase s.assembling id = s.assembling := by
  apply Assoc.erase_of_find_none
  cases hfind : Assoc.find s.assembling id with
  | none => rfl
  | some reassembly =>
    have hin := h.mem_ids (mem_places_assembling (Assoc.mem_of_find hfind))
    exact ((h.last id hin).not_gt hnew).elim

theorem admit_of_memory {memory : Bool} {ledger ledger' : AdmissionLedger} {bytes : Nat}
    {phase : RpcPhase} (h : (if memory then ledger.admitRequest id bytes phase else none) = some ledger') :
    ledger.admitRequest id bytes phase = some ledger' := by
  cases memory
  · cases h
  · exact h

theorem fine_receiveFrame (hlane : LaneOk lane) (h : Books lane s) :
    Fine lane s (receiveFrame lane s kind id payload memory) := by
  rw [receiveFrame]
  by_cases hlong : lane.limits.maxPayloadBytes < payload.length
  · rw [if_pos hlong]
    exact fine_protocol _
  rw [if_neg hlong]
  by_cases hcancel : kind = .cancel
  · rw [if_pos hcancel]
    split_ifs
    · exact fine_protocol _
    · exact fine_cancelRequest hlane h
  rw [if_neg hcancel]
  by_cases hbad : (!isRequestKind kind || decide (id ≤ s.lastRequestId)) = true
  · rw [if_pos hbad]
    exact fine_protocol _
  rw [if_neg hbad]
  simp only [Bool.or_eq_true, decide_eq_true_eq, not_or, not_le] at hbad
  cases rpcReservationBytes kind payload.length lane.limits.maxPayloadBytes with
  | none => exact fine_protocol _
  | some reservedBytes =>
    dsimp only
    cases hadmitted : if memory then s.admission.admitRequest id reservedBytes .queued else none with
    | none => exact fine_sendBusy h hbad.2 s.rejected
    | some admission =>
      have hadmitted' := admit_of_memory hadmitted
      obtain ⟨hsound, hphases⟩ := AdmissionLedger.admit_spec h.ledger hadmitted'
      obtain ⟨hbooks, hadvance⟩ := @Books.enter _ _ { s with
        lastRequestId := id, admission, queued := s.queued ++ [⟨id, kind, payload⟩] } _ _ h
        hbad.2 hsound (hphases ▸ h.placed.cons _) (by
          rw [perm_iff_count]
          intro p
          simp only [Session.places, map_append, map_cons, map_nil, count_append,
            count_cons, count_nil]
          omega) rfl rfl rfl rfl rfl h.assembling
      exact fine_dispatchQueued h hbooks hadvance

theorem Reassembly.start_ok (h : Reassembly.start fragment = .ok reassembly) :
    reassembly.requestId = fragment.requestId := by
  rw [Reassembly.start] at h
  split_ifs at h
  cases h
  rfl

theorem Reassembly.push_ok {reassembly reassembly' : Reassembly}
    (h : reassembly.push fragment = .ok reassembly') :
    reassembly'.requestId = reassembly.requestId := by
  rw [Reassembly.push] at h
  split_ifs at h
  cases h
  rfl

theorem startRejectedReassembly_ne_panicked (rejected : List (Nat × RejectedReassembly))
    (fragment : Fragment) (limit : Nat) (message : String) :
    startRejectedReassembly rejected fragment limit ≠ .error (.panicked message) := by
  rw [startRejectedReassembly, RejectedReassembly.start]
  by_cases hindex : fragment.fragmentIndex ≠ 0
  · rw [if_pos hindex]
    rintro ⟨⟩
  · rw [if_neg hindex]
    change (if _ then _ else if _ then _ else _) ≠ _
    split_ifs <;> rintro ⟨⟩

theorem fine_receiveFirst (h : Books lane s) (fragment : Fragment) (memory : Bool) :
    Fine lane s (receiveFirst lane s fragment memory) := by
  rw [receiveFirst]
  by_cases hbad : (!isRequestKind fragment.kind || decide (fragment.fragmentIndex ≠ 0) ||
      decide (fragment.requestId ≤ s.lastRequestId)) = true
  · rw [if_pos hbad]
    exact fine_protocol _
  rw [if_neg hbad]
  simp only [Bool.or_eq_true, decide_eq_true_eq, not_or, not_le] at hbad
  have hnew := hbad.2
  cases rpcReservationBytes fragment.kind fragment.logicalLen lane.limits.maxPayloadBytes with
  | none => exact fine_protocol _
  | some reservedBytes =>
    dsimp only
    cases hadmitted : if memory then s.admission.admitRequest fragment.requestId reservedBytes .assembling
      else none with
    | none =>
      exact fine_bind (startRejectedReassembly_ne_panicked _ _ _) fun rejected _ =>
        fine_sendBusy h hnew rejected
    | some admission =>
      obtain ⟨hsound, hphases⟩ := AdmissionLedger.admit_spec h.ledger (admit_of_memory hadmitted)
      have hplaced : ((fragment.requestId, RpcPhase.assembling) :: s.places).Perm admission.phases :=
        hphases ▸ h.placed.cons _
      refine fine_bind ?_ fun reassembly hstart => ?_
      · intro message hpanic
        rw [Reassembly.start] at hpanic
        split_ifs at hpanic
        cases hpanic
      have hid := Reassembly.start_ok hstart
      by_cases hcomplete : reassembly.isComplete = true
      · obtain ⟨admission', hmark, hsound', hphases'⟩ := AdmissionLedger.markPhase_spec
          hsound hplaced
        rw [if_pos hcomplete, AdmissionLedger.markQueued, hmark, Reassembly.intoQueued,
          if_pos hcomplete]
        obtain ⟨hbooks, hadvance⟩ := @Books.enter _ _ { s with
          lastRequestId := fragment.requestId, admission := admission'
          queued := s.queued ++ [⟨reassembly.requestId, reassembly.kind, reassembly.payload⟩] } _ _ h
          hnew hsound' hphases' (by
            rw [perm_iff_count]
            intro p
            simp only [Session.places, map_append, map_cons, map_nil,
              count_append, count_cons, count_nil, hid]
            omega) rfl rfl rfl rfl rfl h.assembling
        exact fine_dispatchQueued h hbooks hadvance
      · rw [if_neg hcomplete]
        have herase := erase_assembling h hnew
        obtain ⟨hbooks, hadvance⟩ := @Books.enter _ _ { s with
          lastRequestId := fragment.requestId, admission
          assembling := Assoc.set s.assembling fragment.requestId reassembly } _ _ h
          hnew hsound hplaced (by
            rw [Assoc.set, herase]
            exact .refl _) rfl rfl rfl rfl rfl (by
            intro entry hentry
            rw [Assoc.set, herase] at hentry
            rcases mem_cons.1 hentry with rfl | hentry
            · exact hid
            · exact h.assembling entry hentry)
        exact fine_dispatchQueued h hbooks hadvance

theorem fine_receiveNext (h : Books lane s) {reassembly : Reassembly}
    (hfind : Assoc.find s.assembling fragment.requestId = some reassembly) :
    Fine lane s (receiveNext s fragment reassembly) := by
  have hentry := Assoc.mem_of_find hfind
  have hmem := mem_places_assembling hentry
  have hsplit := perm_cons_erase hmem
  have hperm := Assoc.perm_of_find h.nodup_assembling hfind
  rw [receiveNext]
  refine fine_bind ?_ fun reassembly' hpush => ?_
  · intro message hpanic
    rw [Reassembly.push] at hpanic
    split_ifs at hpanic
    cases hpanic
  have hid : reassembly'.requestId = fragment.requestId :=
    (Reassembly.push_ok hpush).trans (h.assembling _ hentry)
  have hcount (p : Nat × RpcPhase) :=
    (hperm.map fun entry => (entry.1, RpcPhase.assembling)).count_eq p
  simp only [map_cons, count_cons] at hcount
  by_cases hcomplete : reassembly'.isComplete = true
  · obtain ⟨admission, hmark, hsound, hphases⟩ := AdmissionLedger.markPhase_spec
      h.ledger (hsplit.symm.trans h.placed)
    rw [if_pos hcomplete, Reassembly.intoQueued, if_pos hcomplete, AdmissionLedger.markQueued]
    refine fine_bind nofun ?_
    rintro _ ⟨⟩
    rw [hmark]
    obtain ⟨hbooks, hadvance⟩ := @Books.move _ _ { s with
      assembling := Assoc.erase s.assembling fragment.requestId, admission
      queued := s.queued ++ [⟨reassembly'.requestId, reassembly'.kind, reassembly'.payload⟩] } _ _ _ h
      hmem hsound hphases (by
        intro p
        simp only [Session.places, map_append, map_cons, map_nil, count_append,
          count_cons, count_nil, hcount, hid]
        omega) rfl rfl (fun _ => nofun) h.running (by
        intro entry hentry
        exact h.assembling entry (mem_of_mem_filter hentry)) h.active h.control h.bulk
    exact fine_dispatchQueued h hbooks hadvance
  · rw [if_neg hcomplete]
    obtain ⟨hbooks, hadvance⟩ := @Books.move _ _ { s with
      assembling := Assoc.set s.assembling fragment.requestId reassembly' } _ _ _ h
      hmem h.ledger (hsplit.symm.trans h.placed) (by
        intro p
        simp only [Session.places, Assoc.set, map_cons, count_append, count_cons,
          count_nil, hcount]) rfl rfl (fun _ => nofun) h.running (by
        intro entry hentry
        rcases mem_cons.1 hentry with rfl | hentry
        · exact hid
        · exact h.assembling entry (mem_of_mem_filter hentry)) h.active h.control h.bulk
    exact fine_dispatchQueued h hbooks hadvance

theorem fine_rejected (h : Books lane s) (rejected : List (Nat × RejectedReassembly)) :
    Fine lane s (.ok { s with rejected }) :=
  .ok ⟨h.ledger, h.placed, h.running, h.assembling, h.active, h.last, h.control, h.bulk, h.silent,
    h.unseen⟩ ⟨le_refl _, fun _ hin => .inl hin, fun _ _ hout => ⟨hout, rfl⟩⟩
    fun hlively => hlively

theorem fine_receiveFragment (hlane : LaneOk lane) (h : Books lane s) :
    Fine lane s (receiveFragment lane s fragment memory) := by
  rw [receiveFragment]
  by_cases haccept : (!acceptsFragment fragment lane.limits.maxPayloadBytes
      lane.maxFragmentPayloadBytes lane.maxFragments) = true
  · rw [if_pos haccept]
    exact fine_protocol _
  rw [if_neg haccept]
  by_cases hcancel : fragment.kind = .cancel
  · rw [if_pos hcancel]
    split_ifs
    · exact fine_protocol _
    · exact fine_rejected h _
    · exact fine_cancelRequest hlane h
  rw [if_neg hcancel]
  refine fine_bind ?_ fun drained _ => ?_
  · intro message hpanic
    rw [drainRejectedFragment] at hpanic
    cases hfind : Assoc.find s.rejected fragment.requestId with
    | none =>
      rw [hfind] at hpanic
      cases hpanic
    | some state =>
      rw [hfind] at hpanic
      simp only [RejectedReassembly.push] at hpanic
      split_ifs at hpanic
      · cases hpanic
      · change (if _ then _ else _) = _ at hpanic
        split_ifs at hpanic <;> cases hpanic
  cases drained with
  | some rejected => exact fine_rejected h rejected
  | none =>
    dsimp only
    cases hfind : Assoc.find s.assembling fragment.requestId with
    | some reassembly => exact fine_receiveNext h hfind
    | none => exact fine_receiveFirst h fragment memory

theorem fine_receive (hlane : LaneOk lane) (h : Books lane s) (message : Incoming) (memory : Bool) :
    Fine lane s (receive lane s message memory) := by
  rw [receive.eq_def]
  split
  · exact fine_receiveFrame hlane h
  · exact fine_receiveFragment hlane h
  · exact fine_protocol _

end Obsetync.DataLane
