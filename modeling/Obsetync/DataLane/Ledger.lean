import Obsetync.DataLane.Session

namespace Obsetync.DataLane.AdmissionLedger
open List

variable {ledger ledger' : AdmissionLedger} {id bytes : Nat} {phase target : RpcPhase}
  {rest : List (Nat × RpcPhase)}

def phases (ledger : AdmissionLedger) : List (Nat × RpcPhase) :=
  ledger.entries.map fun entry => (entry.1, entry.2.2)

/-- The ledger of a lane is balanced and within its ceilings. -/
structure Sound (limits : LaneLimits) (ledger : AdmissionLedger) : Prop where
  maxRequests : ledger.maxRequests = limits.maxInflightRequests
  maxBytes : ledger.maxBytes = limits.maxInflightBytes
  distinct : (ledger.phases.map Prod.fst).Nodup
  balanced : ledger.usedBytes = (ledger.entries.map fun entry => entry.2.1).sum
  bytes_le : ledger.usedBytes ≤ limits.maxInflightBytes
  requests_le : ledger.entries.length ≤ limits.maxInflightRequests

variable {limits : LaneLimits}

theorem keys_phases (ledger : AdmissionLedger) :
    ledger.phases.map Prod.fst = ledger.entries.map Prod.fst := by
  rw [phases, map_map]
  rfl

theorem sound_new (limits : LaneLimits) : (new limits).Sound limits :=
  ⟨rfl, rfl, nodup_nil, rfl, Nat.zero_le _, Nat.zero_le _⟩

theorem admit_spec (h : ledger.Sound limits) (hadmitted : ledger.admitRequest id bytes phase = some ledger') :
    ledger'.Sound limits ∧ ledger'.phases = (id, phase) :: ledger.phases := by
  rw [admitRequest] at hadmitted
  split_ifs at hadmitted with hfull
  obtain rfl := Option.some.inj hadmitted
  simp only [Bool.or_eq_true, decide_eq_true_eq, not_or, not_le, not_lt,
    Option.not_isSome_iff_eq_none] at hfull
  obtain ⟨⟨hcount, hbytes⟩, hnone⟩ := hfull
  have hset : Assoc.set ledger.entries id (bytes, phase) = (id, bytes, phase) :: ledger.entries := by
    rw [Assoc.set, Assoc.erase_of_find_none hnone]
  refine ⟨⟨h.maxRequests, h.maxBytes, ?_, ?_, ?_, ?_⟩, ?_⟩
  · rw [keys_phases]
    dsimp only
    rw [hset, map_cons, nodup_cons, ← keys_phases]
    refine ⟨?_, h.distinct⟩
    rw [keys_phases, Assoc.mem_keys, hnone]
    rintro ⟨⟩
  · dsimp only
    rw [hset, map_cons, sum_cons, h.balanced, Nat.add_comm]
  · rw [← h.maxBytes]
    exact hbytes
  · dsimp only
    rw [hset, ← h.maxRequests]
    exact hcount
  · rw [phases]
    dsimp only
    rw [hset]
    rfl

theorem find_of_perm (h : ledger.Sound limits) (hperm : ((id, phase) :: rest).Perm ledger.phases) :
    ∃ bytes, Assoc.find ledger.entries id = some (bytes, phase) ∧
      ((Assoc.erase ledger.entries id).map fun entry => (entry.1, entry.2.2)).Perm rest ∧
      ledger.entries.Perm ((id, bytes, phase) :: Assoc.erase ledger.entries id) := by
  have hkeys : (ledger.entries.map Prod.fst).Nodup := keys_phases ledger ▸ h.distinct
  have hmem : (id, phase) ∈ ledger.phases := hperm.subset mem_cons_self
  obtain ⟨⟨id', bytes, phase'⟩, hentry, heq⟩ := mem_map.1 hmem
  cases heq
  have hfind := Assoc.find_of_mem hkeys hentry
  have hsplit := Assoc.perm_of_find hkeys hfind
  refine ⟨bytes, hfind, ?_, hsplit⟩
  have hmap := hsplit.map fun entry : Nat × Nat × RpcPhase => (entry.1, entry.2.2)
  exact (perm_cons _).1 (hmap.symm.trans hperm.symm)

theorem set_spec (h : ledger.Sound limits) (hperm : ((id, phase) :: rest).Perm ledger.phases)
    (hfind : Assoc.find ledger.entries id = some (bytes, phase)) :
    Sound limits { ledger with entries := Assoc.set ledger.entries id (bytes, target) } ∧
      ((id, target) :: rest).Perm
        (phases { ledger with entries := Assoc.set ledger.entries id (bytes, target) }) := by
  obtain ⟨bytes', hfind', hrest, hsplit⟩ := find_of_perm h hperm
  rw [hfind] at hfind'
  cases hfind'
  have hphases : ((id, target) :: rest).Perm
      (phases { ledger with entries := Assoc.set ledger.entries id (bytes, target) }) :=
    hrest.symm.cons _
  refine ⟨⟨h.maxRequests, h.maxBytes, ?_, ?_, h.bytes_le, ?_⟩, hphases⟩
  · apply (hphases.map Prod.fst).nodup
    exact (hperm.map Prod.fst).nodup_iff.2 h.distinct
  · rw [h.balanced]
    exact (hsplit.map fun entry => entry.2.1).sum_eq
  · have hlen := hsplit.length_eq
    rw [length_cons] at hlen
    change (Assoc.erase ledger.entries id).length + 1 ≤ _
    rw [← hlen]
    exact h.requests_le

theorem markPhase_spec (h : ledger.Sound limits)
    (hperm : ((id, phase) :: rest).Perm ledger.phases) :
    ∃ ledger', ledger.markPhase id phase target = .ok ledger' ∧ ledger'.Sound limits ∧
      ((id, target) :: rest).Perm ledger'.phases := by
  obtain ⟨bytes, hfind, -, -⟩ := find_of_perm h hperm
  refine ⟨_, ?_, set_spec h hperm hfind⟩
  rw [markPhase, hfind]
  exact if_pos rfl

theorem markSending_spec (h : ledger.Sound limits)
    (hperm : ((id, phase) :: rest).Perm ledger.phases) :
    ∃ ledger', ledger.markSending id = .ok ledger' ∧ ledger'.Sound limits ∧
      ((id, .sending) :: rest).Perm ledger'.phases := by
  obtain ⟨bytes, hfind, -, -⟩ := find_of_perm h hperm
  refine ⟨_, ?_, set_spec h hperm hfind⟩
  rw [markSending, hfind]

theorem finish_spec (h : ledger.Sound limits) (hperm : ((id, phase) :: rest).Perm ledger.phases) :
    ∃ ledger', ledger.finish id = .ok ledger' ∧ ledger'.Sound limits ∧ rest.Perm ledger'.phases := by
  obtain ⟨bytes, hfind, hrest, hsplit⟩ := find_of_perm h hperm
  have hsum : ledger.usedBytes =
      bytes + ((Assoc.erase ledger.entries id).map fun entry => entry.2.1).sum := by
    rw [h.balanced]
    exact (hsplit.map fun entry => entry.2.1).sum_eq
  have hlen := hsplit.length_eq
  rw [length_cons] at hlen
  have hkeys : (((id, phase) :: rest).map Prod.fst).Nodup :=
    (hperm.map Prod.fst).nodup_iff.2 h.distinct
  refine ⟨{ ledger with
    usedBytes := ledger.usedBytes - bytes, entries := Assoc.erase ledger.entries id }, ?_,
    ⟨h.maxRequests, h.maxBytes, ?_, ?_, ?_, ?_⟩, hrest.symm⟩
  · rw [finish, hfind]
    exact if_neg (by omega)
  · exact (hrest.map Prod.fst).nodup_iff.2 (nodup_cons.1 hkeys).2
  · dsimp only
    omega
  · exact (Nat.sub_le _ _).trans h.bytes_le
  · have := h.requests_le
    dsimp only
    omega

theorem isIn_iff (h : ledger.Sound limits) : ledger.isIn id phase = true ↔ (id, phase) ∈ ledger.phases := by
  have hkeys : (ledger.entries.map Prod.fst).Nodup := keys_phases ledger ▸ h.distinct
  rw [isIn, phases, mem_map, Option.any_eq_true]
  constructor
  · rintro ⟨⟨bytes, phase'⟩, hfind, heq⟩
    cases of_decide_eq_true heq
    exact ⟨_, Assoc.mem_of_find hfind, rfl⟩
  · rintro ⟨⟨id', bytes, phase'⟩, hentry, heq⟩
    cases heq
    exact ⟨_, Assoc.find_of_mem hkeys hentry, decide_eq_true rfl⟩

end Obsetync.DataLane.AdmissionLedger
