import Obsetync.Fallible
import Obsetync.Sequence.Tracker

namespace Obsetync.Sequence
open List

variable {hashBytes : Bytes → FileHash} {disk : Disk} {states : States} {device : Device}
  {n ceiling : Nat} {accepted : List Nat} {written : Written}

/-- What the disk keeps about the numbers accepted for a device. -/
structure Kept (device : Device) (disk : Disk) (accepted : List Nat) : Prop where
  nodup : accepted.Nodup
  pos : ∀ n ∈ accepted, 0 < n
  durable : ∀ c ∈ disk.contents device.id, ∀ n ∈ accepted, n ≤ contentValue c

/-- What a running server knows about a device whose window it loaded with the ceiling. -/
structure Sound (device : Device) (disk : Disk) (states : States) (ceiling : Nat)
    (accepted : List Nat) : Prop extends Kept device disk accepted where
  absent : states device.id = none → ceiling = 0 ∧ ∀ c ∈ disk.contents device.id, c = none
  tracks : ∀ state, states device.id = some state → Tracks state ceiling accepted
  reserved : ∀ state, states device.id = some state → state.reservedThrough ≤ ceiling ∨
    ∀ c ∈ disk.contents device.id, state.reservedThrough ≤ contentValue c

theorem Disk.contents_ne_nil (disk : Disk) (name : String) : disk.contents name ≠ [] := by
  rw [Disk.contents]
  split <;> exact cons_ne_nil _ _

theorem Kept.nil_of_none (h : Kept device disk accepted) (hnone : none ∈ disk.contents device.id) :
    accepted = [] := by
  apply eq_nil_iff_forall_not_mem.2
  intro n hn
  exact absurd (h.durable none hnone n hn) (Nat.not_le.2 (h.pos n hn))

theorem Sound.state (h : Sound device disk states ceiling accepted) :
    Tracks ((states device.id).getD .default) ceiling accepted ∧
      (((states device.id).getD .default).reservedThrough ≤ ceiling ∨ ∀ c ∈ disk.contents device.id,
          ((states device.id).getD .default).reservedThrough ≤ contentValue c) := by
  cases hstate : states device.id with
  | some state => exact ⟨h.tracks state hstate, h.reserved state hstate⟩
  | none =>
    obtain ⟨hzero, hnone⟩ := h.absent hstate
    obtain ⟨c, hc⟩ := exists_mem_of_ne_nil _ (Disk.contents_ne_nil disk device.id)
    rw [hnone c hc] at hc
    obtain rfl := h.toKept.nil_of_none hc
    rw [hzero]
    exact ⟨tracks_default, .inl (le_refl 0)⟩

theorem Kept.accept (h : Kept device disk accepted) (hpos : 0 < n) (hnew : n ∉ accepted)
    (hle : ∀ c ∈ disk.contents device.id, n ≤ contentValue c) :
    Kept device disk (accepted ++ [n]) where
  nodup := by
    rw [nodup_append]
    exact ⟨h.nodup, nodup_singleton n, fun a ha b hb hab =>
      hnew (by rwa [← mem_singleton.1 hb, ← hab])⟩
  pos := by
    intro m hm
    rcases mem_append.1 hm with hm | hm
    · exact h.pos m hm
    · rwa [mem_singleton.1 hm]
  durable := by
    intro c hc m hm
    rcases mem_append.1 hm with hm | hm
    · exact h.durable c hc m hm
    · rw [mem_singleton.1 hm]
      exact hle c hc

theorem Kept.sound (h : Kept device disk accepted) (hstate : states device.id = some state)
    (ht : Tracks state ceiling accepted) (hr : state.reservedThrough ≤ ceiling ∨
      ∀ c ∈ disk.contents device.id, state.reservedThrough ≤ contentValue c) :
    Sound device disk states ceiling accepted where
  toKept := h
  absent := by
    intro hnone
    rw [hstate] at hnone
    cases hnone
  tracks := by
    intro state' hstate'
    rw [hstate] at hstate'
    exact Option.some.inj hstate' ▸ ht
  reserved := by
    intro state' hstate'
    rw [hstate] at hstate'
    exact Option.some.inj hstate' ▸ hr

theorem Sound.congr (h : Sound device disk states ceiling accepted)
    (hdisk : disk'.contents device.id = disk.contents device.id)
    (hstates : states' device.id = states device.id) :
    Sound device disk' states' ceiling accepted := by
  refine ⟨⟨h.nodup, h.pos, ?_⟩, ?_, ?_, ?_⟩
  · rw [hdisk]
    exact h.durable
  · rw [hdisk, hstates]
    exact h.absent
  · rw [hstates]
    exact h.tracks
  · rw [hdisk, hstates]
    exact h.reserved

theorem Sound.record {state : ReplayWindow} (h : Kept device disk accepted)
    (ht : Tracks state ceiling accepted) (hr : state.reservedThrough ≤ ceiling ∨
      ∀ c ∈ disk.contents device.id, state.reservedThrough ≤ contentValue c)
    (hfresh : ¬ (n = 0 ∨ isSeenOrStale state n = true)) (hn : n ≤ state.reservedThrough) :
    Sound device disk (Function.update states device.id (some (record state n))) ceiling
      (accepted ++ [n]) := by
  obtain ⟨hzero, hseen⟩ := not_or.1 hfresh
  have hpos : 0 < n := Nat.pos_of_ne_zero hzero
  have hcontents : ∀ c ∈ disk.contents device.id, state.reservedThrough ≤ contentValue c :=
    hr.resolve_left fun hle => hseen (ht.seen hpos (.inr (hn.trans hle)))
  have hkept : Kept device disk (accepted ++ [n]) :=
    h.accept hpos (fun hmem => hseen (ht.seen hpos (.inl hmem))) fun c hc =>
      hn.trans (hcontents c hc)
  apply hkept.sound (Function.update_self ..) (ht.record (Bool.eq_false_iff.2 hseen) hn)
  rw [reservedThrough_record]
  exact .inr hcontents

theorem checkInMemory_cases (states : States) (deviceId : String) (n : Nat) :
    let state := (states deviceId).getD .default
    (n = 0 ∨ isSeenOrStale state n = true) ∧ checkInMemory states deviceId n =
        (Function.update states deviceId (some state),
          some (.replay (max state.reservedThrough state.greatestSeen))) ∨
      ¬ (n = 0 ∨ isSeenOrStale state n = true) ∧ state.reservedThrough < n ∧
        checkInMemory states deviceId n = (Function.update states deviceId (some state), none) ∨
      ¬ (n = 0 ∨ isSeenOrStale state n = true) ∧ n ≤ state.reservedThrough ∧
        checkInMemory states deviceId n =
          (Function.update states deviceId (some (record state n)), some .accepted) := by
  intro state
  by_cases hold : n = 0 ∨ isSeenOrStale state n = true
  · exact .inl ⟨hold, if_pos hold⟩
  · right
    by_cases hmore : state.reservedThrough < n
    · exact .inl ⟨hold, hmore, (if_neg hold).trans (if_pos hmore)⟩
    · exact .inr ⟨hold, not_lt.1 hmore, (if_neg hold).trans (if_neg hmore)⟩

def newly (device : Device) (deviceId : String) (n : Nat) (reply : Reply) : List Nat :=
  if deviceId = device.id ∧ reply = .decided .accepted then [n] else []

theorem newly_of_ne (h : deviceId ≠ device.id) : newly device deviceId n reply = [] :=
  if_neg fun hand => h hand.1

theorem newly_accepted : newly device device.id n (.decided .accepted) = [n] := if_pos ⟨rfl, rfl⟩

theorem newly_of_not_accepted (h : reply ≠ .decided .accepted) :
    newly device deviceId n reply = [] :=
  if_neg fun hand => h hand.2

theorem checkInMemory_sound (h : Sound device disk states ceiling accepted) (deviceId : String)
    (n : Nat) : Sound device disk (checkInMemory states deviceId n).1 ceiling
      (accepted ++ newly device deviceId n
        ((checkInMemory states deviceId n).2.elim .reserve .decided)) := by
  have hcases := checkInMemory_cases states deviceId n
  by_cases hid : deviceId = device.id
  · subst hid
    obtain ⟨ht, hr⟩ := h.state
    rcases hcases with ⟨-, heq⟩ | ⟨-, -, heq⟩ | ⟨hfresh, hn, heq⟩
    · rw [heq, newly_of_not_accepted (by simp), append_nil]
      exact h.toKept.sound (Function.update_self ..) ht hr
    · rw [heq, newly_of_not_accepted (by simp), append_nil]
      exact h.toKept.sound (Function.update_self ..) ht hr
    · rw [heq]
      change Sound device disk _ ceiling (accepted ++ newly device device.id n (.decided .accepted))
      rw [newly_accepted]
      exact Sound.record h.toKept ht hr hfresh hn
  · rw [newly_of_ne hid, append_nil]
    apply h.congr rfl
    rcases hcases with ⟨-, heq⟩ | ⟨-, -, heq⟩ | ⟨-, -, heq⟩ <;>
      · rw [heq]
        exact Function.update_of_ne (Ne.symm hid) _ _

theorem load_of_none (h : ∀ c ∈ disk.contents device.id, c = none) :
    load hashBytes disk device.id = .ok .default := by
  rw [load, storageComponent_id]
  rw [Disk.contents] at h
  cases hfolder : disk.folder device.id with
  | none => rfl
  | some folder =>
    rw [hfolder] at h
    have hvisible := h folder.visible mem_cons_self
    rw [Option.bind_some, hvisible]

def stateFor (hashBytes : Bytes → FileHash) (disk : Disk) (states : States) (deviceId : String)
    (written : Written) : Except String ReplayWindow :=
  match states deviceId with
  | some state => .ok state
  | none => if written = .unreadable then .error "read failed" else load hashBytes disk deviceId

theorem checkAndRecord_error (hstate : stateFor hashBytes disk states deviceId written = .error e) :
    checkAndRecord hashBytes disk states deviceId n written = (disk, states, .error e) := by
  unfold stateFor at hstate
  split at hstate
  · cases hstate
  · next hmem => simp only [checkAndRecord, hmem, hstate]

theorem checkAndRecord_ok (n : Nat)
    (hstate : stateFor hashBytes disk states deviceId written = .ok state) :
    (∃ states' decision, checkInMemory (Function.update states deviceId (some state)) deviceId n =
        (states', some decision) ∧
      checkAndRecord hashBytes disk states deviceId n written = (disk, states', .ok decision)) ∨
    ¬ (n = 0 ∨ isSeenOrStale state n = true) ∧ state.reservedThrough < n ∧
      checkAndRecord hashBytes disk states deviceId n written =
        (persist hashBytes disk deviceId (reservationCeiling n) written,
          if written = .returned then (Function.update states deviceId
            (some (record { state with reservedThrough := reservationCeiling n } n)), .ok .accepted)
          else (Function.update states deviceId (some state), .error "reservation failed")) := by
  unfold stateFor at hstate
  split at hstate
  all_goals
    next hmem =>
    simp only [checkAndRecord, hmem, hstate, checkInMemory, Function.update_self, Option.getD_some,
      Function.update_idem]
    by_cases hold : n = 0 ∨ isSeenOrStale state n = true
    · exact .inl ⟨_, _, if_pos hold, if_pos hold⟩
    rw [if_neg hold, if_neg hold]
    by_cases hmore : state.reservedThrough < n
    · rw [if_pos hmore, if_pos hmore]
      exact .inr ⟨hold, hmore, by split_ifs <;> rfl⟩
    · exact .inl ⟨_, _, if_neg hmore, if_neg hmore⟩

theorem stateFor_eq (h : Sound device disk states ceiling accepted)
    (hstate : stateFor hashBytes disk states device.id written = .ok state) :
    state = (states device.id).getD .default := by
  rw [stateFor] at hstate
  cases hmem : states device.id with
  | some known =>
    rw [hmem] at hstate
    exact (Except.ok.inj hstate).symm
  | none =>
    rw [hmem] at hstate
    change (if written = .unreadable then _ else _) = _ at hstate
    split_ifs at hstate
    rw [load_of_none (h.absent hmem).2] at hstate
    exact (Except.ok.inj hstate).symm

theorem mem_contents_reserve
    (h : c ∈ (persist hashBytes disk device.id n written).contents device.id) :
    c = some (toBeBytes n) ∨ written ≠ .returned ∧ c ∈ disk.contents device.id := by
  have hpersist := (@mem_contents_persist hashBytes disk device.id n written) (c := c)
  rw [storageComponent_id] at hpersist
  exact hpersist h

theorem Kept.persist (h : Kept device disk accepted) (hceil : reservationCeiling n ≤ maxU64)
    (hle : ∀ m ∈ accepted, m ≤ reservationCeiling n) :
    Kept device (persist hashBytes disk device.id (reservationCeiling n) written) accepted := by
  refine ⟨h.nodup, h.pos, ?_⟩
  intro c hc m hm
  rcases mem_contents_reserve hc with rfl | ⟨-, hold⟩
  · rw [contentValue, fromBeBytes_toBeBytes hceil]
    exact hle m hm
  · exact h.durable c hold m hm

theorem checkAndRecord_sound (h : Sound device disk states ceiling accepted) (deviceId : String)
    (hn : n ≤ maxU64) (written : Written) :
    Sound device (checkAndRecord hashBytes disk states deviceId n written).1
      (checkAndRecord hashBytes disk states deviceId n written).2.1 ceiling
      (accepted ++ newly device deviceId n
        (.ofExcept (checkAndRecord hashBytes disk states deviceId n written).2.2)) := by
  cases hstate : stateFor hashBytes disk states deviceId written with
  | error e =>
    rw [checkAndRecord_error hstate, newly_of_not_accepted (by simp [Reply.ofExcept]), append_nil]
    exact h
  | ok state =>
    have hput : Sound device disk (Function.update states deviceId (some state)) ceiling accepted := by
      by_cases hid : deviceId = device.id
      · subst hid
        obtain ⟨ht, hr⟩ := h.state
        rw [← stateFor_eq h hstate] at ht hr
        exact h.toKept.sound (Function.update_self ..) ht hr
      · exact h.congr rfl (Function.update_of_ne (Ne.symm hid) _ _)
    rcases checkAndRecord_ok n hstate with ⟨states', decision, hcheck, heq⟩ | ⟨hfresh, hmore, heq⟩
    · have hsound := checkInMemory_sound hput deviceId n
      rw [hcheck] at hsound
      rw [heq]
      exact hsound
    rw [heq]
    by_cases hid : deviceId = device.id
    · subst hid
      have ht := hput.tracks state (Function.update_self ..)
      have hceil := reservationCeiling_le hn
      have hle := le_reservationCeiling hn
      have hkept : Kept device (persist hashBytes disk device.id (reservationCeiling n) written)
          accepted := by
        apply h.toKept.persist hceil
        intro m hm
        exact ((ht.accepted_le m hm).trans ht.reserved).trans (hmore.le.trans hle)
      split_ifs with hret
      · change Sound device _ _ ceiling (accepted ++ newly device device.id n (.decided .accepted))
        rw [newly_accepted]
        apply Sound.record hkept (ht.reserve (hmore.le.trans hle)) _ hfresh hle
        right
        intro c hc
        rcases mem_contents_reserve hc with rfl | ⟨hne, -⟩
        · rw [contentValue, fromBeBytes_toBeBytes hceil]
        · exact absurd hret hne
      · rw [newly_of_not_accepted (by simp [Reply.ofExcept]), append_nil]
        -- The reservation failed somewhere: the file holds an old ceiling or the new one.
        refine hkept.sound (Function.update_self ..) ht
          ((hput.reserved state (Function.update_self ..)).imp_right fun hold c hc => ?_)
        rcases mem_contents_reserve hc with rfl | ⟨-, hc⟩
        · rw [contentValue, fromBeBytes_toBeBytes hceil]
          exact hmore.le.trans hle
        · exact hold c hc
    · have hname : device.id ≠ storageComponent hashBytes deviceId := fun hname =>
        hid (eq_id_of_storageComponent hname.symm)
      rw [newly_of_ne hid, append_nil]
      apply h.congr (Disk.contents_congr (folder_persist_of_ne hname))
      split_ifs <;> exact Function.update_of_ne (Ne.symm hid) _ _

theorem loadExistingDevices_eq (h : loadExistingDevices hashBytes disk names states = .ok states') :
    (device.id ∈ names → ∃ state, load hashBytes disk device.id = .ok state ∧
        states' device.id = some state) ∧
      (device.id ∉ names → states' device.id = states device.id) := by
  induction names generalizing states with
  | nil =>
    cases h
    exact ⟨fun hmem => (not_mem_nil hmem).elim, fun _ => rfl⟩
  | cons name names ih =>
    rw [loadExistingDevices] at h
    split_ifs at h with htokens
    · have hne : device.id ≠ name := htokens ▸ device.id_ne_tokens
      simpa only [mem_cons, hne, false_or] using ih h
    · obtain ⟨state, hload, h⟩ := Fallible.bind_eq_ok.1 h
      obtain ⟨hin, hout⟩ := ih h
      by_cases hname : device.id = name
      · subst hname
        refine ⟨fun _ => ?_, fun hno => (hno mem_cons_self).elim⟩
        by_cases hmem : device.id ∈ names
        · exact hin hmem
        · have hstate := hout hmem
          rw [Function.update_self] at hstate
          exact ⟨state, hload, hstate⟩
      · rw [Function.update_of_ne hname] at hout
        simpa only [mem_cons, hname, false_or] using And.intro hin hout

theorem Kept.settle (h : Kept device disk accepted) (choice : String → Option Nat) :
    Kept device (disk.settle choice) accepted :=
  ⟨h.nodup, h.pos, fun c hc => h.durable c (Disk.mem_contents_settle hc)⟩

theorem Disk.folder_isSome (disk : Disk) (name : String) :
    (disk.folder name).isSome ↔ name ∈ disk.map Prod.fst := by
  rw [folder, Option.isSome_map, Option.isSome_iff_ne_none, Ne, Keyed.lookup_eq_none]
  simp

def loadedCeiling (states : States) (deviceId : String) : Nat :=
  ((states deviceId).getD .default).greatestSeen

theorem Kept.start (h : Kept device disk accepted)
    (hload : loadExistingDevices hashBytes disk (disk.map Prod.fst) (fun _ => none) = .ok states) :
    Sound device disk states (loadedCeiling states device.id) accepted ∧
      ∀ n ∈ accepted, n ≤ loadedCeiling states device.id := by
  obtain ⟨hin, hout⟩ := loadExistingDevices_eq hload
  rw [← Disk.folder_isSome] at hin hout
  cases hfolder : disk.folder device.id with
  | none =>
    have hstates := hout (by rw [hfolder]; simp)
    have hnone : ∀ c ∈ disk.contents device.id, c = none := by
      rw [Disk.contents, hfolder]
      exact fun c hc => mem_singleton.1 hc
    have hnil : accepted = [] := by
      apply h.nil_of_none
      rw [Disk.contents, hfolder]
      exact mem_cons_self
    have hzero : loadedCeiling states device.id = 0 := by
      rw [loadedCeiling, hstates]
      rfl
    refine ⟨⟨h, fun _ => ⟨hzero, hnone⟩, ?_, ?_⟩, ?_⟩
    · intro state hstate
      rw [hstates] at hstate
      cases hstate
    · intro state hstate
      rw [hstates] at hstate
      cases hstate
    · rw [hnil]
      exact fun n hn => (not_mem_nil hn).elim
  | some folder =>
    obtain ⟨state, hstate, hmem⟩ := hin (by rw [hfolder]; rfl)
    have hvisible : folder.visible ∈ disk.contents device.id := by
      rw [Disk.contents, hfolder]
      exact mem_cons_self
    rw [load, storageComponent_id, hfolder, Option.bind_some] at hstate
    have hceil : loadedCeiling states device.id = state.greatestSeen := by
      rw [loadedCeiling, hmem]
      rfl
    rw [hceil]
    cases hcontent : folder.visible with
    | none =>
      rw [hcontent] at hstate hvisible
      obtain rfl := Except.ok.inj hstate
      obtain rfl := h.nil_of_none hvisible
      exact ⟨h.sound hmem tracks_default (.inl le_rfl), forall_mem_nil _⟩
    | some bytes =>
      rw [hcontent] at hstate hvisible
      change (if bytes.length ≠ 8 then _ else _) = _ at hstate
      split_ifs at hstate with hlen
      obtain rfl := Except.ok.inj hstate
      have hle : ∀ n ∈ accepted, n ≤ fromBeBytes bytes := h.durable _ hvisible
      exact ⟨h.sound hmem (tracks_loaded hle) (.inl le_rfl), hle⟩

section Runs

variable {server : Server} {event : Event}

theorem toNat_le_maxU64 (sequence : UInt64) : sequence.toNat ≤ maxU64 := by
  have := sequence.toNat_lt
  rw [maxU64]
  omega

theorem Server.step_request (hstates : server.states = some states)
    (h : Sound device server.disk states ceiling accepted) (hevent : event.request.isSome) :
    ∃ states', (server.step hashBytes event).1.states = some states' ∧
      Sound device (server.step hashBytes event).1.disk states' ceiling
        (accepted ++ server.accepts hashBytes device.id event) := by
  obtain ⟨disk, running⟩ := server
  cases hstates
  cases event with
  | checkInMemory deviceId sequence => exact ⟨_, rfl, checkInMemory_sound h deviceId _⟩
  | checkAndRecord deviceId sequence written =>
    exact ⟨_, rfl, checkAndRecord_sound h deviceId (toNat_le_maxU64 sequence) written⟩
  | restart => cases hevent

theorem Server.step_down (hstates : server.states = none) (hevent : event.request.isSome) :
    (server.step hashBytes event).1 = server ∧ server.accepts hashBytes device.id event = [] := by
  obtain ⟨disk, running⟩ := server
  cases hstates
  cases event with
  | checkInMemory deviceId sequence => exact ⟨rfl, if_neg fun h => nomatch h.2⟩
  | checkAndRecord deviceId sequence written => exact ⟨rfl, if_neg fun h => nomatch h.2⟩
  | restart => cases hevent

def Server.Good (device : Device) (server : Server) (accepted : List Nat) : Prop :=
  Kept device server.disk accepted ∧ ∀ states, server.states = some states →
    ∃ ceiling, Sound device server.disk states ceiling accepted

theorem Server.Good.restart (h : server.Good device accepted) (choice : String → Option Nat)
    (readable : Bool) :
    Kept device (server.step hashBytes (.restart choice readable)).1.disk accepted ∧
      ∀ states, (server.step hashBytes (.restart choice readable)).1.states = some states →
        Sound device (server.step hashBytes (.restart choice readable)).1.disk states
            (loadedCeiling states device.id) accepted ∧
          ∀ n ∈ accepted, n ≤ loadedCeiling states device.id := by
  have hkept := h.1.settle choice
  refine ⟨hkept, ?_⟩
  intro states hstates
  cases readable with
  | false => cases hstates
  | true =>
    change Except.toOption _ = _ at hstates
    cases hload : loadExistingDevices hashBytes (server.disk.settle choice)
        ((server.disk.settle choice).map Prod.fst) fun _ => none with
    | error e =>
      rw [hload] at hstates
      cases hstates
    | ok loaded =>
      rw [hload] at hstates
      cases hstates
      exact hkept.start hload

theorem Server.Good.step (h : server.Good device accepted) (event : Event) :
    (server.step hashBytes event).1.Good device
      (accepted ++ server.accepts hashBytes device.id event) := by
  by_cases hevent : event.request.isSome
  · cases hstates : server.states with
    | none =>
      obtain ⟨hserver, hnone⟩ := Server.step_down hstates hevent
      rw [hserver, hnone, append_nil]
      exact h
    | some states =>
      obtain ⟨ceiling, hsound⟩ := h.2 states hstates
      obtain ⟨states', hstates', hsound'⟩ :=
        Server.step_request hstates hsound hevent
      refine ⟨hsound'.toKept, fun states'' hstates'' => ⟨ceiling, ?_⟩⟩
      rw [hstates'] at hstates''
      exact Option.some.inj hstates'' ▸ hsound'
  · cases event with
    | restart choice readable =>
      obtain ⟨hkept, hsound⟩ := h.restart choice readable
      change Server.Good device _ (accepted ++ [])
      rw [append_nil]
      exact ⟨hkept, fun states hstates => ⟨_, (hsound states hstates).1⟩⟩
    | checkInMemory => exact absurd rfl hevent
    | checkAndRecord => exact absurd rfl hevent

theorem Server.Good.run (h : server.Good device accepted) (events : List Event) :
    (server.after hashBytes events).Good device
      (accepted ++ server.accepted hashBytes device.id events) := by
  induction events generalizing server accepted with
  | nil =>
    rw [Server.accepted, append_nil]
    exact h
  | cons event events ih =>
    rw [Server.accepted, ← append_assoc]
    exact ih (h.step event)

theorem good_initial (disk : Disk) : Server.Good device ⟨disk, none⟩ [] :=
  ⟨⟨nodup_nil, fun _ hn => (not_mem_nil hn).elim,
    fun _ _ _ hn => (not_mem_nil hn).elim⟩, fun _ hno => nomatch hno⟩

theorem Server.run_requests (hstates : server.states = some states)
    (h : Sound device server.disk states ceiling accepted)
    (hevents : ∀ event ∈ events, event.request.isSome) :
    ∃ states', (server.after hashBytes events).states = some states' ∧
      Sound device (server.after hashBytes events).disk states' ceiling
        (accepted ++ server.accepted hashBytes device.id events) := by
  induction events generalizing server states accepted with
  | nil =>
    rw [Server.accepted, append_nil]
    exact ⟨states, hstates, h⟩
  | cons event events ih =>
    obtain ⟨hevent, hrest⟩ := forall_mem_cons.1 hevents
    obtain ⟨states', hstates', h'⟩ := Server.step_request hstates h hevent
    rw [Server.accepted, ← append_assoc]
    exact ih hstates' h' hrest

end Runs

theorem Server.accepts_fresh {server : Server} (hstates : server.states = some states)
    {sequence : UInt64} (hpos : 0 < sequence.toNat)
    (hstate : stateFor hashBytes server.disk states device.id .returned =
      .ok ((states device.id).getD .default))
    (hfresh : isSeenOrStale ((states device.id).getD .default) sequence.toNat = false) :
    (server.step hashBytes (.checkAndRecord device.id sequence .returned)).2 = .decided .accepted ∧
      ((server.step hashBytes (.checkInMemory device.id sequence)).2 = .decided .accepted ∨
        (server.step hashBytes (.checkInMemory device.id sequence)).2 = .reserve) := by
  obtain ⟨disk, running⟩ := server
  cases hstates
  have hno : ¬ (sequence.toNat = 0 ∨
      isSeenOrStale ((states device.id).getD .default) sequence.toNat = true) := by
    rintro (hzero | hseen)
    · exact absurd hzero (Nat.pos_iff_ne_zero.1 hpos)
    · rw [hfresh] at hseen
      cases hseen
  constructor
  · change Reply.ofExcept (checkAndRecord hashBytes disk states device.id _ _).2.2 = _
    rcases checkAndRecord_ok sequence.toNat hstate with ⟨states', decision, hcheck, heq⟩ | ⟨-, -, heq⟩
    · have hcases := checkInMemory_cases
        (Function.update states device.id (some ((states device.id).getD .default))) device.id
        sequence.toNat
      simp only [Function.update_self, Option.getD_some, hcheck, Prod.mk.injEq, reduceCtorEq, and_false,
        false_or, hno, false_and] at hcases
      rw [heq, Option.some.inj hcases.2.2.2]
      rfl
    · rw [heq]
      rfl
  · change Option.elim (checkInMemory states device.id _).2 _ _ = _ ∨
      Option.elim (checkInMemory states device.id _).2 _ _ = _
    rcases checkInMemory_cases states device.id sequence.toNat with
      ⟨hold, -⟩ | ⟨-, -, heq⟩ | ⟨-, -, heq⟩
    · exact absurd hold hno
    · rw [heq]
      exact .inr rfl
    · rw [heq]
      exact .inl rfl

end Obsetync.Sequence
