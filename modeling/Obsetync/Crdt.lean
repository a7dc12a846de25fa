import Obsetync.Text
import Obsetync.Wire

/-! The log of live editing, which many clients extend and replace. -/

namespace Obsetync.Crdt
open Wire

def maxUpdateBytes : Nat := 4 * 1024 * 1024

def record (update : Bytes) : Bytes := leBytes 4 update.length ++ update

def splitLoop : Nat → Bytes → List Bytes
  | 0, _ => []
  | fuel + 1, log =>
    if log.length < 4 then []
    else
      let len := ofLe (log.take 4)
      if (log.drop 4).length < len then []
      else (log.drop 4).take len :: splitLoop fuel ((log.drop 4).drop len)

def splitFrames (log : Bytes) : List Bytes := splitLoop log.length log

/-- The log of a note, the updates whose append reported success, and what each client has read or
made. -/
structure Note where
  log : Bytes
  acked : List Bytes
  known : Nat → List Bytes

def Note.new : Note := ⟨[], [], fun _ => []⟩

/-- An append that fails has written a part of its record. -/
inductive Event
  | read (client : Nat)
  | append (client : Nat) (update : Bytes)
  | torn (client : Nat) (update : Bytes) (written : Nat)
  | compact (client : Nat) (snapshot : Bytes)

def Note.learn (note : Note) (client : Nat) (updates : List Bytes) : Note :=
  { note with known := Function.update note.known client (note.known client ++ updates) }

def Note.step (note : Note) : Event → Note
  | .read client => note.learn client (splitFrames note.log)
  | .append client update =>
    if update = [] then { note.learn client [update] with acked := note.acked ++ [update] }
    else if maxUpdateBytes < update.length then note.learn client [update]
    else { note.learn client [update] with
      log := note.log ++ record update, acked := note.acked ++ [update] }
  | .torn client update written =>
    if update = [] ∨ maxUpdateBytes < update.length then note.learn client [update]
    else { note.learn client [update] with log := note.log ++ (record update).take written }
  | .compact _ snapshot =>
    if maxUpdateBytes < snapshot.length then note else { note with log := record snapshot }

def Note.run (note : Note) (events : List Event) : Note := events.foldl Note.step note

section
variable (contains : Bytes → Bytes → Bool)

/-- A client compacts to a snapshot with all that it has read or made. -/
def honest : Note → List Event → Bool
  | _, [] => true
  | note, .compact client snapshot :: events =>
    (note.known client).all (contains snapshot) && honest (note.step (.compact client snapshot)) events
  | note, event :: events => honest (note.step event) events

def Note.Readable (note : Note) (update : Bytes) : Prop :=
  ∃ frame ∈ splitFrames note.log, frame = update ∨ contains frame update = true

def Note.LosesNothing (note : Note) : Prop := ∀ update ∈ note.acked, note.Readable contains update

/-- An append is found again where it was written, and a snapshot has every acknowledged update. -/
def Harmless (note : Note) : Event → Prop
  | .append client update =>
    update ∈ (note.step (.append client update)).acked →
      (note.step (.append client update)).Readable contains update
  | .compact _ snapshot => snapshot.length ≤ maxUpdateBytes →
    ∀ update ∈ note.acked, snapshot = update ∨ contains snapshot update = true
  | _ => True

def AllHarmless : Note → List Event → Prop
  | _, [] => True
  | note, event :: events => Harmless contains note event ∧ AllHarmless (note.step event) events

end

theorem splitLoop_prefix (log more : Bytes) (hfuel : fuel ≤ fuel') :
    splitLoop fuel log <+: splitLoop fuel' (log ++ more) := by
  induction fuel generalizing log fuel' with
  | zero => exact List.nil_prefix
  | succ fuel ih =>
    obtain ⟨fuel', rfl⟩ := Nat.exists_eq_add_one.2 (Nat.zero_lt_of_lt hfuel)
    rw [splitLoop]
    dsimp only
    split_ifs with hshort hlong
    · exact List.nil_prefix
    · exact List.nil_prefix
    · rw [not_lt] at hshort hlong
      have hlonger : ¬ (log ++ more).length < 4 := by
        rw [List.length_append]
        omega
      have hlonger' : ¬ (log.drop 4 ++ more).length < ofLe (log.take 4) := by
        rw [List.length_append]
        omega
      rw [splitLoop, if_neg hlonger, List.take_append_of_le_length hshort,
        List.drop_append_of_le_length hshort]
      dsimp only
      rw [if_neg hlonger', List.take_append_of_le_length hlong, List.drop_append_of_le_length hlong]
      exact (List.prefix_cons_inj _).2 (ih _ (Nat.le_of_succ_le_succ hfuel))

theorem splitFrames_record (h : update.length ≤ maxUpdateBytes) :
    splitFrames (record update) = [update] := by
  have hlen : update.length < 256 ^ 4 := h.trans_lt (by decide)
  have hsize : (record update).length = update.length + 3 + 1 := by
    rw [record, List.length_append, leBytes_length]
    omega
  rw [splitFrames, hsize, splitLoop, if_neg (by omega), record,
    List.take_left' leBytes_length, List.drop_left' leBytes_length, ofLe_leBytes hlen]
  dsimp only
  rw [if_neg (lt_irrefl _), List.take_length, List.drop_length]
  rfl

theorem readable_of_prefix {note later : Note} (h : note.log <+: later.log)
    (hread : note.Readable contains update) : later.Readable contains update := by
  obtain ⟨frame, hframe, hfound⟩ := hread
  obtain ⟨more, hmore⟩ := h
  have hprefix : splitFrames note.log <+: splitFrames later.log := by
    rw [← hmore]
    exact splitLoop_prefix _ _ (by simp)
  exact ⟨frame, hprefix.subset hframe, hfound⟩

theorem losesNothing_step {note : Note} (h : note.LosesNothing contains) (event : Event) :
    (note.step event).LosesNothing contains ↔ Harmless contains note event := by
  cases event with
  | read client => exact iff_of_true h trivial
  | append client update =>
    have hlog : note.log <+: (note.step (.append client update)).log := by
      rw [Note.step]
      split_ifs
      · exact List.prefix_rfl
      · exact List.prefix_rfl
      · exact List.prefix_append _ _
    have hacked {u : Bytes} (hu : u ∈ (note.step (.append client update)).acked) :
        u ∈ note.acked ∨ u = update := by
      rw [Note.step] at hu
      split_ifs at hu
      · simpa using hu
      · exact .inl hu
      · simpa using hu
    refine ⟨fun hall hmem => hall update hmem, fun hnew u hu => ?_⟩
    rcases hacked hu with hold | rfl
    · exact readable_of_prefix hlog (h u hold)
    · exact hnew hu
  | torn client update written =>
    refine iff_of_true ?_ trivial
    rw [Note.step]
    split_ifs
    · exact h
    · exact fun u hu => readable_of_prefix (List.prefix_append _ _) (h u hu)
  | compact client snapshot =>
    rw [Note.step, Harmless]
    split_ifs with hlong
    · exact iff_of_true h fun hle => absurd hlong (not_lt.2 hle)
    · rw [not_lt] at hlong
      simp only [Note.LosesNothing, Note.Readable, splitFrames_record hlong, List.mem_singleton,
        exists_eq_left, forall_const, hlong]

theorem losesNothing_run {note : Note} (h : note.LosesNothing contains) :
    (∀ before, before <+: events → (note.run before).LosesNothing contains) ↔
      AllHarmless contains note events := by
  induction events generalizing note with
  | nil =>
    refine iff_of_true (fun before hbefore => ?_) trivial
    rw [List.prefix_nil.1 hbefore]
    exact h
  | cons event events ih =>
    rw [AllHarmless, ← losesNothing_step h event]
    constructor
    · intro hall
      have hstep := hall [event] ⟨events, rfl⟩
      exact ⟨hstep, (ih hstep).1 fun before hbefore =>
        hall (event :: before) ((List.prefix_cons_inj _).2 hbefore)⟩
    · rintro ⟨hstep, hrest⟩ before hbefore
      cases before with
      | nil => exact h
      | cons first before =>
        obtain ⟨rfl, htail⟩ := List.cons_prefix_cons.1 hbefore
        exact (ih hstep).2 hrest before htail

end Obsetync.Crdt
