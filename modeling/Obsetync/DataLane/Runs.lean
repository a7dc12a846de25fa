import Obsetync.DataLane.Receive

namespace Obsetync.DataLane
open List

variable {lane : NegotiatedLane} {s s' : Session} {id : Nat}

theorem fine_step (hlane : LaneOk lane) (h : Books lane s) (event : Event) :
    Fine lane s (s.step lane event) := by
  cases event with
  | send => exact fine_send hlane h
  | receive message memory => exact fine_receive hlane h message memory
  | complete id result => exact fine_complete hlane h result
  | hangUp => exact fine_closed _

theorem fine_run (hlane : LaneOk lane) (h : Books lane s) (events : List Event) :
    Fine lane s (s.run lane events) := by
  induction events generalizing s with
  | nil => exact .ok h (.refl lane s) fun hlively => hlively
  | cons event events ih =>
    have hstep := fine_step hlane h event
    rw [Session.run]
    refine fine_bind hstep.1 fun s' hs' => ?_
    obtain ⟨hbooks, hadvance, hlively⟩ := hstep.2 s' hs'
    obtain ⟨hpanic, hok⟩ := ih hbooks
    refine ⟨hpanic, fun s'' hs'' => ?_⟩
    obtain ⟨hbooks', hadvance', hlively'⟩ := hok s'' hs''
    exact ⟨hbooks', hadvance.trans h hadvance', fun hs => hlively' (hlively hs)⟩

theorem books_new (lane : NegotiatedLane) : Books lane (.new lane.limits) :=
  ⟨AdmissionLedger.sound_new _, .refl _, Nat.zero_le _, nofun, nofun, nofun, nofun, nofun,
    fun _ _ _ _ => rfl, fun _ _ => rfl⟩

/-- An event that moves a request on: a fragment goes out, or a running handler returns. -/
def Productive (s : Session) : Event → Prop
  | .send => s.nextOutbound ≠ none
  | .complete id _ => (Assoc.find s.active id).isSome
  | .receive _ _ => False
  | .hangUp => False

def Working (lane : NegotiatedLane) : Session → List Event → Prop
  | _, [] => True
  | s, event :: events => Productive s event ∧ ∀ s', s.step lane event = .ok s' → Working lane s' events

theorem gains_step (hlane : LaneOk lane) (h : Books lane s) (hevent : Productive s event) :
    Gains lane s (s.step lane event) := by
  cases event with
  | send => exact gains_send hlane h hevent
  | complete id result =>
    obtain ⟨rpc, hfind⟩ := Option.isSome_iff_exists.1 hevent
    exact gains_complete hlane h hfind result
  | receive => exact hevent.elim
  | hangUp => exact hevent.elim

theorem length_le_work (hlane : LaneOk lane) (h : Books lane s) (hworking : Working lane s events) :
    events.length ≤ work lane s ∧ ∃ s', s.run lane events = .ok s' := by
  induction events generalizing s with
  | nil => exact ⟨Nat.zero_le _, s, rfl⟩
  | cons event events ih =>
    obtain ⟨hevent, hrest⟩ := hworking
    obtain ⟨s', hstep, hbooks, -, hless, -⟩ := gains_step hlane h hevent
    obtain ⟨hlength, s'', hrun⟩ := ih hbooks (hrest s' hstep)
    refine ⟨lt_of_le_of_lt hlength hless, s'', ?_⟩
    rw [Session.run, hstep]
    exact hrun

theorem nextOutbound_ne_none (h : s.controlReady ≠ [] ∨ s.bulkReady ≠ []) :
    s.nextOutbound ≠ none := by
  rw [Session.nextOutbound, nextOutboundLane]
  rcases h with hcontrol | hbulk
  · obtain ⟨ready, rest, hqueue⟩ := exists_cons_of_ne_nil hcontrol
    rw [hqueue, head?_cons, Option.map_some, Option.isSome_some, if_pos rfl]
    split_ifs <;> rintro ⟨⟩
  · have hlength : s.bulkReady.length ≠ 0 := by rwa [ne_eq, length_eq_zero_iff]
    rw [if_pos hlength]
    split_ifs <;> rintro ⟨⟩

theorem exists_productive (hlively : Lively s) (hmem : (id, phase) ∈ s.places)
    (hphase : phase ≠ .assembling) :
    Productive s .send ∨ ∃ id, ∀ result, Productive s (.complete id result) := by
  have hrunning (hactive : s.active ≠ []) : ∃ id, ∀ result, Productive s (.complete id result) := by
    obtain ⟨entry, rest, hqueue⟩ := exists_cons_of_ne_nil hactive
    refine ⟨entry.1, fun _ => ?_⟩
    rw [Productive, ← Assoc.mem_keys, hqueue]
    exact mem_cons_self
  rcases hlively with hqueued | hactive | hready
  · simp only [Session.places, hqueued, map_nil, append_nil, mem_append,
      mem_map, Prod.mk.injEq] at hmem
    rcases hmem with ((⟨entry, -, -, rfl⟩ | ⟨entry, hin, -⟩) | ⟨ready, hin, -⟩) | ⟨ready, hin, -⟩
    · exact (hphase rfl).elim
    · exact .inr (hrunning (ne_nil_of_mem hin))
    · exact .inl (nextOutbound_ne_none (.inl (ne_nil_of_mem hin)))
    · exact .inl (nextOutbound_ne_none (.inr (ne_nil_of_mem hin)))
  · exact .inr (hrunning hactive)
  · exact .inl (nextOutbound_ne_none hready)

def smallLane : NegotiatedLane := ⟨.v2, ⟨65536, 4, 1048576⟩, 1024, 64⟩

def smallRequest : Event :=
  .receive (.obw2 ⟨.checkObjects, 1, 3, 0, 0, 1, [1, 2, 3]⟩) true

end Obsetync.DataLane
