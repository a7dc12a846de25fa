import Mathlib

/-! Reading again what is at the paths that may have changed. -/

namespace Obsetync.FileSafety
open List

structure FileStat where
  mtime : Rat
  size : Rat
  deriving DecidableEq

structure DirtyFileChange where
  path : String
  hash : Option String
  mtime : Option Rat
  size : Option Rat

inductive Action
  | created
  | modified
  deriving DecidableEq

inductive FileChange
  | deleted (path : String)
  | current (action : Action) (path : String) (stat : FileStat) (hash : Option String)
  deriving DecidableEq

inductive OmissionReason
  | excluded
  | untrackedDirectory
  deriving DecidableEq

/-- How `statFile` ends: with `PathIsDirectoryError`, or with any other error. -/
inductive Probe (ε : Type)
  | found (stat : FileStat)
  | missing
  | directory
  | failed (error : ε)

inductive Failure (ε : Type)
  | concurrency
  | undefinedResult
  | probe (error : ε)
  deriving DecidableEq

/-- A row of the result, or a call of `onOmission`. -/
inductive Report
  | change (change : FileChange)
  | omission (path : String) (reason : OmissionReason)
  deriving DecidableEq

def Report.path : Report → String
  | .change (.deleted path) => path
  | .change (.current _ path _ _) => path
  | .omission path _ => path

structure Policy where
  isTracked : String → Bool
  isExcluded : String → Bool

structure Row extends DirtyFileChange where
  excluded : Bool
  tracked : Bool
  statIndex : Option Nat

def groupLimit : Nat := 256

variable {ε : Type}

def classify (policy : Policy) (change : DirtyFileChange) : Row :=
  if policy.isExcluded change.path then ⟨⟨change.path, none, none, none⟩, true, false, none⟩
  else ⟨change, false, policy.isTracked change.path, none⟩

def number : Nat → List Row → List Row
  | _, [] => []
  | n, row :: rows =>
    if row.excluded then row :: number n rows
    else { row with statIndex := some n } :: number (n + 1) rows

def fill {α : Type} (work : List α) (order : Equiv.Perm (Fin work.length))
    (slots : Fin work.length → Option α) (i : Fin work.length) : Fin work.length → Option α :=
  Function.update slots (order i) (some (work.get (order i)))

/-- `Promise.allSettled`, when the probes end in this order. -/
def allSettled {α : Type} (work : List α) (order : Equiv.Perm (Fin work.length)) : List α :=
  (List.ofFn ((List.finRange work.length).foldl (fill work order) fun _ => none)).reduceOption

def settle (row : Row) : Probe ε → Except (Failure ε) Report
  | .failed error => .error (.probe error)
  | .directory =>
    .ok (if row.tracked then .change (.deleted row.path)
      else .omission row.path .untrackedDirectory)
  | .missing => .ok (.change (.deleted row.path))
  | .found stat => .ok (.change (.current (if row.tracked then .modified else .created) row.path
      stat (if row.mtime = some stat.mtime ∧ row.size = some stat.size then row.hash else none)))

def report (settled : List (Probe ε)) (row : Row) : Except (Failure ε) Report :=
  if row.excluded then .ok (.omission row.path .excluded)
  else match row.statIndex.bind (settled[·]?) with
    | some probe => settle row probe
    | none => .error .undefinedResult

/-- The rows one after the other, until one of them fails. -/
def observe {φ : Type} : List (Except φ Report) → List Report × Option φ
  | [] => ([], none)
  | .error failure :: _ => ([], some failure)
  | .ok report :: rest => (report :: (observe rest).1, (observe rest).2)

def ValidReading (reading : Rat) : Prop :=
  reading.den = 1 ∧ 0 < reading.num ∧ reading.num ≤ 2 ^ 53 - 1

instance : DecidablePred ValidReading := fun _ => inferInstanceAs (Decidable (_ ∧ _))

/-- What is reported from the index on, with the concurrency that is read there and the order in
which the probes of each group end. -/
def materializeLoop (policy : Policy) (readings : Nat → Rat)
    (orders : Nat → (n : Nat) → Equiv.Perm (Fin n)) (inputs : List (DirtyFileChange × Probe ε)) :
    Nat → Nat → List Report × Option (Failure ε)
  | 0, _ => ([], none)
  | fuel + 1, index =>
    if inputs.length ≤ index then ([], none)
    else if ¬ ValidReading (readings index) then ([], some .concurrency)
    else
      let length := min (readings index).num.toNat
        (min (inputs.length - index) (groupLimit - index % groupLimit))
      let group := ((inputs.drop index).take length).map fun (change, probe) =>
        (classify policy change, probe)
      let work := (group.filter (!·.1.excluded)).map Prod.snd
      let settled := allSettled work (orders index work.length)
      let (reports, failure) := observe ((number 0 (group.map Prod.fst)).map (report settled))
      if failure.isSome then (reports, failure)
      else
        let (rest, failure) :=
          materializeLoop policy readings orders inputs fuel (index + group.length)
        (reports ++ rest, failure)

def materializeFileChanges (policy : Policy) (readings : Nat → Rat)
    (orders : Nat → (n : Nat) → Equiv.Perm (Fin n)) (inputs : List (DirtyFileChange × Probe ε)) :
    List Report × Option (Failure ε) :=
  materializeLoop policy readings orders inputs inputs.length 0

def outcome (policy : Policy) (input : DirtyFileChange × Probe ε) : Except (Failure ε) Report :=
  if policy.isExcluded input.1.path then .ok (.omission input.1.path .excluded)
  else settle (classify policy input.1) input.2

def probeOneByOne (policy : Policy) (inputs : List (DirtyFileChange × Probe ε)) :
    List Report × Option (Failure ε) :=
  observe (inputs.map (outcome policy))

theorem foldl_fill {α : Type} {work : List α} {order : Equiv.Perm (Fin work.length)}
    (l : List (Fin work.length)) (slots : Fin work.length → Option α) (j : Fin work.length) :
    l.foldl (fill work order) slots j =
      if order.symm j ∈ l then some (work.get j) else slots j := by
  induction l generalizing slots with
  | nil => simp
  | cons i l ih =>
    rw [foldl_cons, ih, fill, Function.update_apply]
    grind

theorem allSettled_eq {α : Type} (work : List α) (order : Equiv.Perm (Fin work.length)) :
    allSettled work order = work := by
  have hall : (List.finRange work.length).foldl (fill work order) (fun _ => none) =
      some ∘ work.get := by
    funext j
    rw [foldl_fill, if_pos (mem_finRange _)]
    rfl
  rw [allSettled, hall, ← map_ofFn, ofFn_get]
  simp [List.reduceOption]

theorem report_number (before : List (Probe ε)) (group : List (Row × Probe ε)) :
    (number before.length (group.map Prod.fst)).map
      (report (before ++ (group.filter (!·.1.excluded)).map Prod.snd)) =
      group.map fun (row, probe) =>
        if row.excluded then .ok (.omission row.path .excluded) else settle row probe := by
  induction group generalizing before with
  | nil => rfl
  | cons pair group ih =>
    obtain ⟨row, probe⟩ := pair
    cases hrow : row.excluded with
    | true => simp [number, hrow, report, ih]
    | false =>
      have hrest := ih (before ++ [probe])
      rw [length_append, length_singleton, append_assoc, singleton_append] at hrest
      simp [number, hrow, report, hrest]
      rfl

theorem reports_eq (policy : Policy) (inputs : List (DirtyFileChange × Probe ε))
    (order : (n : Nat) → Equiv.Perm (Fin n)) :
    let group := inputs.map fun (change, probe) => (classify policy change, probe)
    let work := (group.filter (!·.1.excluded)).map Prod.snd
    (number 0 (group.map Prod.fst)).map (report (allSettled work (order work.length))) =
      inputs.map (outcome policy) := by
  intro group work
  rw [allSettled_eq]
  refine (report_number [] group).trans ?_
  rw [map_map]
  apply map_congr_left
  rintro ⟨change, probe⟩ -
  simp only [Function.comp_apply, outcome]
  cases hexcluded : policy.isExcluded change.path <;> simp [classify, hexcluded]

theorem observe_append {φ : Type} (l m : List (Except φ Report)) : observe (l ++ m) =
    if (observe l).2.isSome then observe l
    else ((observe l).1 ++ (observe m).1, (observe m).2) := by
  induction l with
  | nil => rfl
  | cons x l ih =>
    cases x with
    | error failure => rfl
    | ok report =>
      rw [cons_append, observe, observe, ih]
      split_ifs <;> rfl

theorem materializeLoop_spec (policy : Policy) (readings : Nat → Rat)
    (orders : Nat → (n : Nat) → Equiv.Perm (Fin n)) (inputs : List (DirtyFileChange × Probe ε))
    (hfuel : inputs.length ≤ index + fuel) :
    let out := materializeLoop policy readings orders inputs fuel index
    let serial := observe ((inputs.drop index).map (outcome policy))
    out = serial ∨ out.2 = some .concurrency ∧ out.1 <+: serial.1 ∧
      ∃ i < inputs.length, ¬ ValidReading (readings i) := by
  induction fuel generalizing index with
  | zero =>
    rw [Nat.add_zero] at hfuel
    rw [drop_eq_nil_of_le hfuel]
    exact .inl rfl
  | succ fuel ih =>
    rw [materializeLoop]
    by_cases hend : inputs.length ≤ index
    · simp [hend, drop_eq_nil_of_le hend, observe]
    rw [if_neg hend]
    by_cases hreading : ValidReading (readings index)
    · rw [if_neg (not_not.2 hreading)]
      dsimp only
      rw [reports_eq policy _ (orders index)]
      set length := min (readings index).num.toNat
        (min (inputs.length - index) (groupLimit - index % groupLimit))
      have hpos : 0 < length := by
        have hlimit := Nat.mod_lt index (by decide : 0 < groupLimit)
        have hone := hreading.2.1
        omega
      have hle : length ≤ inputs.length - index := (min_le_right _ _).trans (min_le_left _ _)
      rw [length_map, length_take, length_drop, min_eq_left hle]
      have hsplit : observe ((inputs.drop index).map (outcome policy)) =
          observe (((inputs.drop index).take length).map (outcome policy) ++
            (inputs.drop (index + length)).map (outcome policy)) := by
        rw [← map_append, ← drop_drop, take_append_drop]
      rw [hsplit, observe_append]
      split_ifs
      · exact .inl rfl
      · rcases @ih (index + length) (by omega) with heq | ⟨hfail, hprefix, hinvalid⟩
        · exact .inl (by rw [heq])
        · exact .inr ⟨hfail, (prefix_append_right_inj _).2 hprefix, hinvalid⟩
    · rw [if_pos hreading]
      exact .inr ⟨rfl, nil_prefix, index, not_le.1 hend, hreading⟩

theorem path_of_outcome {policy : Policy} {input : DirtyFileChange × Probe ε} {report : Report}
    (h : outcome policy input = .ok report) : report.path = input.1.path := by
  obtain ⟨change, probe⟩ := input
  cases probe <;> grind [outcome, settle, classify, Report.path]

theorem deleted_of_outcome {policy : Policy} {input : DirtyFileChange × Probe ε} {path : String}
    (h : outcome policy input = .ok (.change (.deleted path))) :
    policy.isExcluded input.1.path = false ∧
      (input.2 = .missing ∨ input.2 = .directory ∧ policy.isTracked input.1.path = true) := by
  obtain ⟨change, probe⟩ := input
  cases probe <;> grind [outcome, settle, classify]

theorem getElem?_observe {φ : Type} {l : List (Except φ Report)} {i : Nat} {report : Report}
    (h : (observe l).1[i]? = some report) : l[i]? = some (.ok report) := by
  induction l generalizing i with
  | nil => cases h
  | cons x l ih =>
    cases x with
    | error failure => cases h
    | ok first =>
      cases i with
      | zero => exact congrArg _ (congrArg _ (Option.some.inj h))
      | succ i => exact ih h

theorem observe_eq_none {φ : Type} {l : List (Except φ Report)} (h : (observe l).2 = none) :
    l = (observe l).1.map .ok := by
  induction l with
  | nil => rfl
  | cons x l ih =>
    cases x with
    | error failure => cases h
    | ok report => exact congrArg _ (ih h)

/-- Groups and the order in which their probes end change nothing: unless a reading is refused, the
reports are those of probing one by one. -/
theorem materialize_serial (policy : Policy) (readings : Nat → Rat)
    (orders : Nat → (n : Nat) → Equiv.Perm (Fin n)) (inputs : List (DirtyFileChange × Probe ε)) :
    let out := materializeFileChanges policy readings orders inputs
    (out = probeOneByOne policy inputs ∨ out.2 = some .concurrency ∧
      out.1 <+: (probeOneByOne policy inputs).1 ∧
      ∃ i < inputs.length, ¬ ValidReading (readings i)) ∧
    (out.2 = none → out.1.map Report.path = inputs.map fun input => input.1.path) ∧
    (∀ (i : Nat) path, out.1[i]? = some (.change (.deleted path)) → ∃ change probe,
      inputs[i]? = some (change, probe) ∧ change.path = path ∧ policy.isExcluded path = false ∧
        (probe = .missing ∨ probe = .directory ∧ policy.isTracked path = true)) ∧
    ∀ change error, (change, .failed error) ∈ inputs → policy.isExcluded change.path = false →
      out.2 ≠ none := by
  intro out
  have hspec : out = probeOneByOne policy inputs ∨ out.2 = some .concurrency ∧
      out.1 <+: (probeOneByOne policy inputs).1 ∧
      ∃ i < inputs.length, ¬ ValidReading (readings i) :=
    materializeLoop_spec policy readings orders inputs (Nat.zero_add _).ge
  have hprefix : out.1 <+: (probeOneByOne policy inputs).1 := by
    rcases hspec with heq | ⟨-, hprefix, -⟩
    · rw [heq]
    · exact hprefix
  have hall (hnone : out.2 = none) : inputs.map (outcome policy) = out.1.map .ok := by
    rcases hspec with heq | ⟨hfail, -⟩
    · rw [heq] at hnone ⊢
      exact observe_eq_none hnone
    · rw [hnone] at hfail
      cases hfail
  refine ⟨hspec, fun hnone => ?_, fun i path hi => ?_, fun change error hmem hexcluded hnone => ?_⟩
  · apply ext_getElem?
    intro i
    have hi : (inputs.map (outcome policy))[i]? = (out.1.map .ok)[i]? := by rw [hall hnone]
    rw [getElem?_map, getElem?_map] at hi ⊢
    cases hinput : inputs[i]? with
    | none =>
      rw [hinput] at hi
      rw [Option.map_eq_none_iff.1 hi.symm]
      rfl
    | some input =>
      rw [hinput] at hi
      obtain ⟨report, hreport, hone⟩ := Option.map_eq_some_iff.1 hi.symm
      rw [hreport]
      exact congrArg some (path_of_outcome hone.symm)
  · have hlater : (probeOneByOne policy inputs).1[i]? = some (.change (.deleted path)) := by
      obtain ⟨later, hlater⟩ := hprefix
      rw [← hlater, getElem?_append_left (List.getElem?_eq_some_iff.1 hi).1, hi]
    have hone := getElem?_observe hlater
    rw [getElem?_map] at hone
    obtain ⟨⟨change, probe⟩, hinput, hone⟩ := Option.map_eq_some_iff.1 hone
    obtain rfl : path = change.path := path_of_outcome hone
    exact ⟨change, probe, hinput, rfl, deleted_of_outcome hone⟩
  · have hmapped : outcome policy (change, .failed error) ∈ inputs.map (outcome policy) :=
      mem_map_of_mem hmem
    rw [hall hnone] at hmapped
    obtain ⟨report, -, hreport⟩ := mem_map.1 hmapped
    simp [outcome, hexcluded, settle] at hreport

/-- With a concurrency of zero nothing is reported. -/
theorem materialize_refuses_zero :
    let inputs : List (DirtyFileChange × Probe Unit) := [(⟨"a", none, none, none⟩, .missing)]
    let policy : Policy := ⟨fun _ => true, fun _ => false⟩
    materializeFileChanges policy (fun _ => 0) (fun _ _ => 1) inputs = ([], some .concurrency) ∧
      probeOneByOne policy inputs = ([.change (.deleted "a")], none) := by
  decide

end Obsetync.FileSafety
