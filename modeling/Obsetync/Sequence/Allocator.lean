import Obsetync.Sequence.Soundness

namespace Obsetync.Sequence
open List

def maxSafeInteger : Nat := 2 ^ 53 - 1

/-- The block sizes that the constructor of the allocator accepts. -/
abbrev BlockSize := { n : Nat // 0 < n ∧ n ≤ maxSafeInteger }

/-- The allocator of the plugin with its settings: `current` is what the settings say now, `saved`
what they will say after a crash. -/
structure Client where
  nextValue : Nat
  reservedThrough : Nat
  current : Nat
  saved : Nat
  deriving DecidableEq

/-- How `persistReservedThrough` ends. A failed call may have changed the settings or their file. -/
inductive Persisted
  | ok
  | failed (changed written : Bool)

def Client.opened (saved : Nat) : Client := ⟨1, 0, saved, saved⟩

def Client.crash (client : Client) : Client := .opened client.saved

def Client.persistFailed (client : Client) (value : Nat) (changed written : Bool) : Client :=
  { client with
    current := if changed then value else client.current
    saved := if written then value else client.saved }

section

variable (blockSize : BlockSize)

/-- The part of `next` and `recover` that reserves the block after `previousEnd`. -/
def Client.reserveAfter (client : Client) (previousEnd : Nat) (reason : String) :
    Persisted → Client × Except String Unit
  | persisted =>
    let newEnd := previousEnd + blockSize.val
    if maxSafeInteger < newEnd then
      (client, .error ("transport-v2 sequence " ++ reason ++ "; re-enroll device"))
    else
      match persisted with
      | .failed changed written =>
        (client.persistFailed newEnd changed written, .error "persist failed")
      | .ok => (⟨previousEnd + 1, newEnd, newEnd, newEnd⟩, .ok ())

def invalidState : String := "transport-v2 sequence state is invalid; re-enroll device"

def Client.next (client : Client) (persisted : Persisted) : Client × Except String Nat :=
  if client.nextValue ≤ client.reservedThrough then
    ({ client with nextValue := client.nextValue + 1 }, .ok client.nextValue)
  else if maxSafeInteger < client.current then (client, .error invalidState)
  else
    let previousEnd := max client.current client.reservedThrough
    match client.reserveAfter blockSize previousEnd "space exhausted" persisted with
    | (client, .error e) => (client, .error e)
    | (client, .ok ()) =>
      ({ client with nextValue := client.nextValue + 1 }, .ok client.nextValue)

/-- Jump past the server's durable ceiling after a replay response. -/
def Client.recover (client : Client) (serverReservedThrough : Nat) (persisted : Persisted) :
    Client × Except String Unit :=
  if maxSafeInteger < serverReservedThrough ∨ maxSafeInteger < client.current then
    (client, .error invalidState)
  else
    client.reserveAfter blockSize
      (max serverReservedThrough (max client.current client.reservedThrough)) "recovery overflow"
      persisted

/-- The lock runs the calls one after the other. A crash inside a call is a call that failed, then a
crash. -/
inductive ClientEvent
  | next (persisted : Persisted)
  | recover (serverReservedThrough : Nat) (persisted : Persisted)
  | crash

def Client.step (client : Client) : ClientEvent → Client × Option Nat
  | .next persisted =>
    let (client, result) := client.next blockSize persisted
    (client, result.toOption)
  | .recover serverReservedThrough persisted =>
    ((client.recover blockSize serverReservedThrough persisted).1, none)
  | .crash => (client.crash, none)

def Client.handedOut : Client → List ClientEvent → List Nat
  | _, [] => []
  | client, event :: events =>
    (client.step blockSize event).2.toList ++ handedOut (client.step blockSize event).1 events

end

variable {blockSize : BlockSize} {client : Client} {handed : List Nat} {previousEnd : Nat}

/-- What holds of an allocator over any run. -/
structure Client.Good (client : Client) (handed : List Nat) : Prop where
  nodup : handed.Nodup
  saved : ∀ n ∈ handed, n ≤ client.saved
  current : ∀ n ∈ handed, n ≤ client.current
  reserved_saved : client.reservedThrough ≤ client.saved
  reserved_current : client.reservedThrough ≤ client.current
  fresh : client.nextValue ≤ client.reservedThrough → ∀ n ∈ handed, n < client.nextValue

theorem Client.reserveAfter_cases (client : Client) (previousEnd : Nat) (reason : String)
    (persisted : Persisted) :
    (∃ e, client.reserveAfter blockSize previousEnd reason persisted = (client, .error e)) ∨
      (∃ changed written e, client.reserveAfter blockSize previousEnd reason persisted =
        (client.persistFailed (previousEnd + blockSize.val) changed written, .error e)) ∨
      persisted = .ok ∧ previousEnd + blockSize.val ≤ maxSafeInteger ∧
        client.reserveAfter blockSize previousEnd reason persisted =
          (⟨previousEnd + 1, previousEnd + blockSize.val, previousEnd + blockSize.val,
            previousEnd + blockSize.val⟩, .ok ()) := by
  by_cases hmax : maxSafeInteger < previousEnd + blockSize.val
  · exact .inl ⟨_, if_pos hmax⟩
  · right
    cases persisted with
    | failed changed written => exact .inl ⟨changed, written, _, if_neg hmax⟩
    | ok => exact .inr ⟨rfl, not_lt.1 hmax, if_neg hmax⟩

theorem Client.Good.persistFailed (h : client.Good handed) (hvalue : client.current ≤ value)
    (changed written : Bool) : (client.persistFailed value changed written).Good handed where
  nodup := h.nodup
  saved := by
    intro n hn
    cases written
    · exact h.saved n hn
    · exact (h.current n hn).trans hvalue
  current := by
    intro n hn
    cases changed
    · exact h.current n hn
    · exact (h.current n hn).trans hvalue
  reserved_saved := by
    cases written
    · exact h.reserved_saved
    · exact h.reserved_current.trans hvalue
  reserved_current := by
    cases changed
    · exact h.reserved_current
    · exact h.reserved_current.trans hvalue
  fresh := h.fresh

theorem Client.Good.reserveAfter (h : client.Good handed) (hend : client.current ≤ previousEnd)
    (reason : String) (persisted : Persisted) :
    (client.reserveAfter blockSize previousEnd reason persisted).1.Good handed := by
  have hle : ∀ n ∈ handed, n ≤ previousEnd := fun n hn => (h.current n hn).trans hend
  rcases client.reserveAfter_cases previousEnd reason persisted with
    ⟨e, heq⟩ | ⟨changed, written, e, heq⟩ | ⟨-, -, heq⟩
  · rw [heq]
    exact h
  · rw [heq]
    exact h.persistFailed (hend.trans (Nat.le_add_right _ _)) changed written
  · rw [heq]
    exact ⟨h.nodup, fun n hn => (hle n hn).trans (Nat.le_add_right _ _),
      fun n hn => (hle n hn).trans (Nat.le_add_right _ _), le_refl _, le_refl _,
      fun _ n hn => Nat.lt_succ_of_le (hle n hn)⟩

theorem Client.Good.take (h : client.Good handed) (hle : client.nextValue ≤ client.reservedThrough) :
    Client.Good { client with nextValue := client.nextValue + 1 } (handed ++ [client.nextValue]) := by
  have hfresh := h.fresh hle
  refine ⟨?_, ?_, ?_, h.reserved_saved, h.reserved_current, ?_⟩
  · rw [nodup_append]
    refine ⟨h.nodup, nodup_singleton _, ?_⟩
    intro a ha b hb hab
    rw [hab, mem_singleton.1 hb] at ha
    exact lt_irrefl _ (hfresh _ ha)
  · intro n hn
    rcases mem_append.1 hn with hn | hn
    · exact h.saved n hn
    · exact (mem_singleton.1 hn).trans_le (hle.trans h.reserved_saved)
  · intro n hn
    rcases mem_append.1 hn with hn | hn
    · exact h.current n hn
    · exact (mem_singleton.1 hn).trans_le (hle.trans h.reserved_current)
  · intro _ n hn
    rcases mem_append.1 hn with hn | hn
    · exact (hfresh n hn).trans (Nat.lt_succ_self _)
    · exact (mem_singleton.1 hn).trans_lt (Nat.lt_succ_self _)

theorem Client.next_cases (client : Client) (persisted : Persisted) :
    client.nextValue ≤ client.reservedThrough ∧ client.next blockSize persisted =
        ({ client with nextValue := client.nextValue + 1 }, .ok client.nextValue) ∨
      (∃ e, client.next blockSize persisted = (client, .error e)) ∨
      ∃ reserved, (reserved = client.reserveAfter blockSize
          (max client.current client.reservedThrough) "space exhausted" persisted) ∧
        ((∃ e, reserved.2 = .error e ∧ client.next blockSize persisted = (reserved.1, .error e)) ∨
          reserved.2 = .ok () ∧ client.next blockSize persisted =
            ({ reserved.1 with nextValue := reserved.1.nextValue + 1 },
              .ok reserved.1.nextValue)) := by
  rw [next]
  split_ifs with hblock hinvalid
  · exact .inl ⟨hblock, rfl⟩
  · exact .inr (.inl ⟨_, rfl⟩)
  · right
    right
    refine ⟨_, rfl, ?_⟩
    dsimp only
    rcases client.reserveAfter blockSize (max client.current client.reservedThrough)
      "space exhausted" persisted with ⟨client', e | u⟩
    · exact .inl ⟨e, rfl, rfl⟩
    · exact .inr ⟨rfl, rfl⟩

theorem Client.reserveAfter_ok
    (h : (client.reserveAfter blockSize previousEnd reason persisted).2 = .ok ()) :
    (client.reserveAfter blockSize previousEnd reason persisted).1 =
      ⟨previousEnd + 1, previousEnd + blockSize.val, previousEnd + blockSize.val,
        previousEnd + blockSize.val⟩ ∧ previousEnd + blockSize.val ≤ maxSafeInteger := by
  rcases client.reserveAfter_cases previousEnd reason persisted with
    ⟨e, heq⟩ | ⟨changed, written, e, heq⟩ | ⟨-, hmax, heq⟩
  · rw [heq] at h
    cases h
  · rw [heq] at h
    cases h
  · rw [heq]
    exact ⟨rfl, hmax⟩

theorem Client.Good.step (h : client.Good handed) (event : ClientEvent) :
    (client.step blockSize event).1.Good (handed ++ (client.step blockSize event).2.toList) := by
  cases event with
  | next persisted =>
    change (client.next blockSize persisted).1.Good
      (handed ++ (client.next blockSize persisted).2.toOption.toList)
    rcases client.next_cases persisted with
      ⟨hblock, heq⟩ | ⟨e, heq⟩ | ⟨reserved, hreserved, hcases⟩
    · rw [heq]
      exact h.take hblock
    · rw [heq]
      exact (append_nil handed).symm ▸ h
    · have hgood : reserved.1.Good handed := by
        rw [hreserved]
        exact h.reserveAfter (le_max_left _ _) _ _
      rcases hcases with ⟨e, -, heq⟩ | ⟨hok, heq⟩
      · rw [heq]
        exact (append_nil handed).symm ▸ hgood
      · rw [heq]
        apply hgood.take
        rw [hreserved] at hok ⊢
        rw [(Client.reserveAfter_ok hok).1]
        exact Nat.add_le_add_left blockSize.property.1 _
  | recover serverReservedThrough persisted =>
    change (client.recover blockSize serverReservedThrough persisted).1.Good (handed ++ [])
    rw [append_nil, Client.recover]
    split_ifs
    · exact h
    · exact h.reserveAfter ((le_max_left _ _).trans (le_max_right _ _)) _ _
  | crash =>
    change client.crash.Good (handed ++ [])
    rw [append_nil]
    exact ⟨h.nodup, h.saved, h.saved, Nat.zero_le _, Nat.zero_le _,
      fun hno => (Nat.not_succ_le_zero 0 hno).elim⟩

theorem Client.Good.run (h : client.Good handed) (events : List ClientEvent) :
    (handed ++ client.handedOut blockSize events).Nodup := by
  induction events generalizing client handed with
  | nil =>
    rw [Client.handedOut, append_nil]
    exact h.nodup
  | cons event events ih =>
    rw [Client.handedOut, ← append_assoc]
    exact ih (h.step event)

theorem Client.good_opened (saved : Nat) : (Client.opened saved).Good [] where
  nodup := nodup_nil
  saved := fun _ hn => (not_mem_nil hn).elim
  current := fun _ hn => (not_mem_nil hn).elim
  reserved_saved := Nat.zero_le _
  reserved_current := Nat.zero_le _
  fresh := fun _ _ hn => (not_mem_nil hn).elim

theorem Client.next_of_recover (h : (client.recover blockSize server persisted).2 = .ok ()) :
    ∃ n, ((client.recover blockSize server persisted).1.next blockSize persisted').2 = .ok n ∧
      server < n ∧ n ≤ maxSafeInteger := by
  rw [Client.recover] at h ⊢
  split_ifs at h ⊢
  obtain ⟨hclient, hmax⟩ := Client.reserveAfter_ok h
  have hpos := blockSize.property.1
  rw [hclient, Client.next, if_pos (Nat.add_le_add_left hpos _)]
  refine ⟨_, rfl, Nat.lt_succ_of_le (le_max_left _ _), ?_⟩
  exact (Nat.add_le_add_left hpos _).trans hmax

theorem Client.recover_ok
    (h : max server (max client.current client.reservedThrough) + blockSize.val ≤ maxSafeInteger) :
    (client.recover blockSize server .ok).2 = .ok () := by
  have hserver : server ≤ maxSafeInteger :=
    ((le_max_left _ _).trans (Nat.le_add_right _ _)).trans h
  have hcurrent : client.current ≤ maxSafeInteger :=
    (((le_max_left _ _).trans (le_max_right _ _)).trans (Nat.le_add_right _ _)).trans h
  rw [Client.recover, if_neg (by rw [not_or]; exact ⟨not_lt.2 hserver, not_lt.2 hcurrent⟩)]
  exact congrArg Prod.snd (if_neg (not_lt.2 h))

section Replay

variable {hashBytes : Bytes → FileHash} {device : Device} {server : Server} {event : Event}

theorem checkInMemory_replay
    (h : (checkInMemory states deviceId n).2 = some (.replay greatestSeen)) :
    ∃ state, (checkInMemory states deviceId n).1 deviceId = some state ∧ state.greatestSeen ≤ greatestSeen := by
  rcases checkInMemory_cases states deviceId n with ⟨-, heq⟩ | ⟨-, -, heq⟩ | ⟨-, -, heq⟩ <;> rw [heq] at h ⊢
  · cases h
    exact ⟨_, Function.update_self _ _ _, le_max_right _ _⟩
  · cases h
  · cases h

theorem Server.step_replay (hevent : event.request = some (device.id, n))
    (h : (server.step hashBytes event).2 = .decided (.replay greatestSeen)) :
    ∃ states state, (server.step hashBytes event).1.states = some states ∧
      states device.id = some state ∧ state.greatestSeen ≤ greatestSeen := by
  obtain ⟨disk, running⟩ := server
  cases event with
  | restart => cases hevent
  | checkInMemory deviceId sequence =>
    cases hevent
    cases running with
    | none => cases h
    | some states =>
      change Option.elim (checkInMemory states device.id _).2 _ _ = _ at h
      cases hdecision : (checkInMemory states device.id sequence.toNat).2 with
      | none =>
        rw [hdecision] at h
        cases h
      | some decision =>
        rw [hdecision] at h
        cases h
        exact ⟨_, (checkInMemory_replay hdecision).imp fun _ hstate => ⟨rfl, hstate⟩⟩
  | checkAndRecord deviceId sequence written =>
    cases hevent
    cases running with
    | none => cases h
    | some states =>
      have hrun : (Server.step hashBytes ⟨disk, some states⟩
          (.checkAndRecord device.id sequence written)).1.states = some
            (checkAndRecord hashBytes disk states device.id sequence.toNat written).2.1 := rfl
      change Reply.ofExcept (checkAndRecord hashBytes disk states device.id _ _).2.2 = _ at h
      cases hstate : stateFor hashBytes disk states device.id written with
      | error e =>
        rw [checkAndRecord_error hstate] at h
        cases h
      | ok state =>
        rcases checkAndRecord_ok sequence.toNat hstate with ⟨states', decision, hcheck, heq⟩ | ⟨-, -, heq⟩
        · rw [heq] at h hrun
          cases h
          have hreplay := checkInMemory_replay (congrArg Prod.snd hcheck)
          rw [hcheck] at hreplay
          exact ⟨_, hreplay.imp fun _ hstate => ⟨hrun, hstate⟩⟩
        · rw [heq] at h
          split_ifs at h
          · cases h
          · cases h

theorem Server.accepts_after_replay {sequence : UInt64}
    (hevent : event.request = some (device.id, n))
    (h : (server.step hashBytes event).2 = .decided (.replay greatestSeen))
    (hlt : greatestSeen < sequence.toNat) : ((server.step hashBytes event).1.step hashBytes
        (.checkAndRecord device.id sequence .returned)).2 = .decided .accepted ∧
      (((server.step hashBytes event).1.step hashBytes
          (.checkInMemory device.id sequence)).2 = .decided .accepted ∨
        ((server.step hashBytes event).1.step hashBytes
          (.checkInMemory device.id sequence)).2 = .reserve) := by
  obtain ⟨states, state, hstates, hstate, hle⟩ := Server.step_replay hevent h
  apply Server.accepts_fresh hstates (Nat.zero_lt_of_lt hlt)
  · rw [stateFor, hstate]
    rfl
  · rw [hstate]
    exact isSeenOrStale_eq_false.2 fun hno => absurd (hno.trans hle) (not_le.2 hlt)

end Replay

/-- No number is accepted twice, new numbers in the window are accepted, the plugin never hands out
a number twice, and after a replay answer the number it allocates is accepted. -/
theorem antiReplay_sound (hashBytes : Bytes → FileHash) (device : Device) (disk : Disk)
    (events : List Event) (blockSize : BlockSize) (saved : Nat) (clientEvents : List ClientEvent) :
    (Server.accepted hashBytes device.id ⟨disk, none⟩ events).Nodup ∧
    (∀ choice readable requests states (sequence : UInt64),
      let started := (Server.step hashBytes (Server.after hashBytes ⟨disk, none⟩ events)
        (.restart choice readable)).1
      started.states = some states → (∀ event ∈ requests, event.request.isSome) →
      loadedCeiling states device.id < sequence.toNat →
      sequence.toNat ∉ started.accepted hashBytes device.id requests →
      (∀ m ∈ started.accepted hashBytes device.id requests, m < sequence.toNat + windowBits) →
      let now := started.after hashBytes requests
      (now.step hashBytes (.checkAndRecord device.id sequence .returned)).2 = .decided .accepted ∧
        ((now.step hashBytes (.checkInMemory device.id sequence)).2 = .decided .accepted ∨
          (now.step hashBytes (.checkInMemory device.id sequence)).2 = .reserve)) ∧
    ((Client.opened saved).handedOut blockSize clientEvents).Nodup ∧
    ∀ (event : Event) (n greatestSeen : Nat) (client : Client) (persisted persisted' : Persisted),
      let server := Server.after hashBytes ⟨disk, none⟩ events
      event.request = some (device.id, n) →
      (server.step hashBytes event).2 = .decided (.replay greatestSeen) →
      (max greatestSeen (max client.current client.reservedThrough) + blockSize.val ≤
        maxSafeInteger → (client.recover blockSize greatestSeen .ok).2 = .ok ()) ∧
      ((client.recover blockSize greatestSeen persisted).2 = .ok () →
        ∃ next, ((client.recover blockSize greatestSeen persisted).1.next blockSize
            persisted').2 = .ok next ∧
          ((server.step hashBytes event).1.step hashBytes
            (.checkAndRecord device.id (UInt64.ofNat next) .returned)).2 = .decided .accepted ∧
          (((server.step hashBytes event).1.step hashBytes
              (.checkInMemory device.id (UInt64.ofNat next))).2 = .decided .accepted ∨
            ((server.step hashBytes event).1.step hashBytes
              (.checkInMemory device.id (UInt64.ofNat next))).2 = .reserve)) := by
  have hgood := @Server.Good.run hashBytes _ _ _ (@good_initial device disk) events
  rw [nil_append] at hgood
  refine ⟨hgood.1.nodup, ?_, ?_, ?_⟩
  · intro choice readable requests states sequence started hstates hrequests hceiling hnew hwindow
    obtain ⟨hsound, hold⟩ := (hgood.restart choice readable).2 states hstates
    obtain ⟨states', hstates', hnow⟩ :=
      Server.run_requests hstates hsound hrequests
    obtain ⟨ht, -⟩ := hnow.state
    apply Server.accepts_fresh hstates' (Nat.zero_lt_of_lt hceiling)
    · rw [stateFor]
      cases hmem : states' device.id with
      | some state => rfl
      | none => exact load_of_none (hnow.absent hmem).2
    · apply ht.fresh _ hceiling
      · intro m hm
        rcases mem_append.1 hm with hm | hm
        · exact ((hold m hm).trans_lt hceiling).trans_le (Nat.le_add_right _ _)
        · exact hwindow m hm
      · intro hmem
        rcases mem_append.1 hmem with hmem | hmem
        · exact Nat.not_le.2 hceiling (hold _ hmem)
        · exact hnew hmem
  · have hrun := @Client.Good.run blockSize _ _ (Client.good_opened saved) clientEvents
    rwa [nil_append] at hrun
  · intro event n greatestSeen client persisted persisted' server hevent hreplay
    refine ⟨Client.recover_ok, ?_⟩
    intro hrecover
    obtain ⟨next, hnext, hlt, hmax⟩ := Client.next_of_recover hrecover
    have hvalue : (UInt64.ofNat next).toNat = next := by
      apply UInt64.toNat_ofNat_of_lt'
      exact hmax.trans_lt (by decide)
    refine ⟨next, hnext, ?_⟩
    apply Server.accepts_after_replay hevent hreplay
    rwa [hvalue]

theorem length_sample : (List.replicate 16 (0 : UInt8)).length = 16 := rfl

def sampleDevice : Device := ⟨List.replicate 16 0, length_sample⟩

def sampleHash (_ : Bytes) : FileHash := ⟨List.replicate 32 0, length_zeros⟩

def sampleRun : List Event :=
  [.restart (fun _ => none) true, .checkAndRecord sampleDevice.id 5 .returned]

/-- Two requests arrive in the wrong order, the first one is replayed, and the plugin recovers. -/
theorem antiReplay_reordered :
    (Server.accepted sampleHash sampleDevice.id ⟨[], none⟩ sampleRun).Nodup ∧
    ((Server.after sampleHash ⟨[], none⟩ sampleRun).step sampleHash
      (.checkAndRecord sampleDevice.id 3 .returned)).2 = .decided .accepted ∧
    ((Server.after sampleHash ⟨[], none⟩ sampleRun).step sampleHash
      (.checkInMemory sampleDevice.id 5)).2 = .decided (.replay 4096) ∧
    ∃ next, (((Client.opened 0).recover ⟨4096, by decide⟩ 4096 .ok).1.next ⟨4096, by decide⟩
        .ok).2 = .ok next ∧
      (((Server.after sampleHash ⟨[], none⟩ sampleRun).step sampleHash
        (.checkInMemory sampleDevice.id 5)).1.step sampleHash
          (.checkAndRecord sampleDevice.id (UInt64.ofNat next) .returned)).2 =
        .decided .accepted := by
  have hreplay : ((Server.after sampleHash ⟨[], none⟩ sampleRun).step sampleHash
      (.checkInMemory sampleDevice.id 5)).2 = .decided (.replay 4096) := by decide +kernel
  obtain ⟨hnodup, -, -, hrecover⟩ := antiReplay_sound sampleHash sampleDevice [] sampleRun
    ⟨4096, by decide⟩ 0 []
  obtain ⟨-, hfresh, -⟩ := antiReplay_sound sampleHash sampleDevice [] [] ⟨4096, by decide⟩ 0 []
  refine ⟨hnodup, ?_, hreplay, ?_⟩
  · exact (hfresh (fun _ => none) true [.checkAndRecord sampleDevice.id 5 .returned] _ 3 rfl
      (forall_mem_singleton.2 rfl) (by decide +kernel) (by decide +kernel)
      (by decide +kernel)).1
  · obtain ⟨next, hnext, haccept, -⟩ :=
      (hrecover (.checkInMemory sampleDevice.id 5) 5 4096 (.opened 0) .ok .ok rfl hreplay).2
        (by decide +kernel)
    exact ⟨next, hnext, haccept⟩

end Obsetync.Sequence
