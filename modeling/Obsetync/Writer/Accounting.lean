import Obsetync.Writer.Queue
import Obsetync.Fallible

namespace Obsetync.Writer

open QueueState List

section

variable {state state' : QueueState} {out l : List Reservation} {r : Reservation} {c : Counter}
  {owner : WriterOwner} {usage current : OwnerUsage}

theorem weigh_cons : weigh (r :: l) c = r.weight c + weigh l c := rfl

theorem weigh_perm (h : l.Perm l') : weigh l c = weigh l' c := (h.map _).sum_eq

theorem ofOwner_cons : ofOwner (r :: l) owner =
    if r.owner = owner then r :: ofOwner l owner else ofOwner l owner := by
  rw [ofOwner, filter_cons]
  by_cases h : r.owner = owner <;> simp [h, ofOwner]

theorem Exact.perm (h : Exact state out) (hperm : out.Perm out') : Exact state out' where
  total c := (h.total c).trans (weigh_perm hperm)
  owners := h.owners
  distinct := h.distinct
  missing owner := (h.missing owner).trans
    ⟨fun hnil => perm_nil.1 (hnil ▸ (hperm.filter _).symm), fun hnil => perm_nil.1 (hnil ▸ hperm.filter _)⟩
  usage owner usage hfind c := (h.usage owner usage hfind c).trans (weigh_perm (hperm.filter _))

theorem exact_empty : Exact {} [] where
  total c := by cases c <;> rfl
  owners c := by cases c <;> rfl
  distinct := nodup_nil
  missing _ := iff_of_true rfl rfl
  usage _ _ h := nomatch h

theorem ceilings_empty : Ceilings {} where
  messages := Nat.zero_le _
  bytes := Nat.zero_le _
  bulkMessages := Nat.zero_le _
  bulkBytes := Nat.zero_le _
  activeOwners := Nat.zero_le _
  owner _ _ h := nomatch h

theorem Exact.eq_empty (h : Exact state []) : state = {} := by
  have hmessages := h.total .messages
  have hbytes := h.total .bytes
  have hbulkMessages := h.total .bulkMessages
  have hbulkBytes := h.total .bulkBytes
  have howners : state.owners = [] := by
    cases hlist : state.owners with
    | nil => rfl
    | cons entry rest =>
      have hmem := (h.missing entry.1).2 rfl
      rw [hlist, Assoc.find_cons, if_pos rfl] at hmem
      cases hmem
  cases state
  cases hmessages
  cases hbytes
  cases hbulkMessages
  cases hbulkBytes
  cases howners
  rfl

def charged (state : QueueState) (owner : WriterOwner) : OwnerUsage :=
  (Assoc.find state.owners owner).getD {}

theorem Exact.charged_count (h : Exact state out) : (charged state owner).count c = weigh (ofOwner out owner) c := by
  unfold charged
  cases hfind : Assoc.find state.owners owner with
  | none =>
    rw [(h.missing owner).1 hfind]
    cases c <;> rfl
  | some usage => exact h.usage owner usage hfind c

theorem weigh_le (hle : ∀ r : Reservation, r.weight c ≤ r.weight c') : weigh l c ≤ weigh l c' :=
  sum_le_sum fun r _ => hle r

theorem bulk_weight_le (r : Reservation) :
    r.weight .bulkMessages ≤ r.weight .messages ∧ r.weight .bulkBytes ≤ r.weight .bytes := by
  unfold Reservation.weight
  split_ifs
  · exact ⟨le_rfl, le_rfl⟩
  · exact ⟨Nat.zero_le _, Nat.zero_le _⟩

theorem Exact.bulk_le (h : Exact state out) :
    (charged state owner).bulkMessages ≤ (charged state owner).messages ∧
      (charged state owner).bulkBytes ≤ (charged state owner).bytes := by
  have hmessages : (charged state owner).count .bulkMessages ≤ (charged state owner).count .messages := by
    rw [h.charged_count, h.charged_count]
    exact weigh_le fun r => (bulk_weight_le r).1
  have hbytes : (charged state owner).count .bulkBytes ≤ (charged state owner).count .bytes := by
    rw [h.charged_count, h.charged_count]
    exact weigh_le fun r => (bulk_weight_le r).2
  exact ⟨hmessages, hbytes⟩

theorem weigh_filter_le (p : Reservation → Bool) : weigh (l.filter p) c ≤ weigh l c :=
  (filter_sublist.map _).sum_le_sum fun _ _ => Nat.zero_le _

theorem Exact.length_owners_le (h : Exact state out) : state.owners.length ≤ state.messages := by
  have hsum := h.owners .messages
  have hpos : ∀ entry ∈ state.owners, 1 ≤ entry.2.count .messages := by
    intro entry hentry
    have hfind := Assoc.find_of_mem h.distinct hentry
    rw [h.usage entry.1 entry.2 hfind]
    cases hmine : ofOwner out entry.1 with
    | nil =>
      rw [(h.missing entry.1).2 hmine] at hfind
      cases hfind
    | cons r rest => exact Nat.le_add_right 1 _
  change state.messages = _ at hsum
  rw [hsum]
  have hle := sum_le_sum (f := fun _ : WriterOwner × OwnerUsage => 1)
    (g := fun entry => entry.2.count .messages) hpos
  simpa using hle

/-- What the checks of `reserve` have seen when they let a reservation through. -/
structure Admitted (state : QueueState) (r : Reservation) : Prop where
  messages : state.messages + 1 ≤ channelMessages
  bytes : state.bytes + r.bytes ≤ queueBytes
  activeOwners : Assoc.find state.owners r.owner = none → state.owners.length < maxActiveOwners
  ownerMessages : (charged state r.owner).messages < ownerQueueMessages
  ownerBytes : (charged state r.owner).bytes + r.bytes ≤ ownerQueueBytes
  bulk : r.writerClass = .bulk → state.bulkMessages + 1 ≤ bulkQueueMessages ∧
    state.bulkBytes + r.bytes ≤ bulkQueueBytes ∧ (charged state r.owner).bulkMessages < ownerBulkMessages ∧
    (charged state r.owner).bulkBytes + r.bytes ≤ ownerBulkBytes
  control : r.writerClass = .control →
    (charged state r.owner).messages - (charged state r.owner).bulkMessages < ownerControlMessages ∧
    (charged state r.owner).bytes - (charged state r.owner).bulkBytes + r.bytes ≤ controlLimit r.owner

theorem exceeds_eq_false (hlimit : limit < 2 ^ 64) : exceeds a b limit = false ↔ a + b ≤ limit := by
  unfold exceeds checkedAdd
  split_ifs with h
  · simp
  · simp only [Option.all_none, Bool.true_eq_false, false_iff, not_le]
    omega

theorem controlLimit_lt (owner : WriterOwner) : controlLimit owner < 2 ^ 64 := by
  cases owner with
  | internal => decide
  | authenticated key =>
    have h : ownerControlBytes < 2 ^ 64 := by decide
    exact h

theorem admitClass_bulk (hclass : r.writerClass = .bulk) :
    state.admitClass current r = .ok () ∧ (state.bulkMessages + 1 ≤ bulkQueueMessages ∧
        state.bulkBytes + r.bytes ≤ bulkQueueBytes ∧ current.bulkMessages < ownerBulkMessages ∧
        current.bulkBytes + r.bytes ≤ ownerBulkBytes) ∨
      state.admitClass current r = .error .busy ∧ ¬ (state.bulkMessages + 1 ≤ bulkQueueMessages ∧
        state.bulkBytes + r.bytes ≤ bulkQueueBytes ∧ current.bulkMessages < ownerBulkMessages ∧
        current.bulkBytes + r.bytes ≤ ownerBulkBytes) := by
  have h1 : bulkQueueMessages < 2 ^ 64 := by decide
  have h2 : bulkQueueBytes < 2 ^ 64 := by decide
  have h3 : ownerBulkBytes < 2 ^ 64 := by decide
  unfold admitClass checkedAdd
  rw [hclass]
  dsimp only
  by_cases hm : state.bulkMessages + 1 < 2 ^ 64
  · by_cases hb : state.bulkBytes + r.bytes < 2 ^ 64
    · by_cases ho : current.bulkBytes + r.bytes < 2 ^ 64
      · rw [if_pos hm, if_pos hb, if_pos ho]
        dsimp only
        split_ifs with hover
        · exact .inr ⟨rfl, by omega⟩
        · exact .inl ⟨rfl, by omega⟩
      · rw [if_pos hm, if_pos hb, if_neg ho]
        exact .inr ⟨rfl, by omega⟩
    · rw [if_pos hm, if_neg hb]
      exact .inr ⟨rfl, by omega⟩
  · rw [if_neg hm]
    exact .inr ⟨rfl, by omega⟩

theorem admitClass_control (hclass : r.writerClass = .control)
    (hle : current.bulkMessages ≤ current.messages ∧ current.bulkBytes ≤ current.bytes) :
    state.admitClass current r =
      if current.messages - current.bulkMessages < ownerControlMessages ∧
        current.bytes - current.bulkBytes + r.bytes ≤ controlLimit r.owner then .ok () else .error .busy := by
  unfold admitClass sub
  rw [hclass]
  dsimp only
  rw [if_pos hle.1, if_pos hle.2]
  change (if _ then _ else _) = _
  have hfits := exceeds_eq_false (a := current.bytes - current.bulkBytes) (b := r.bytes)
    (controlLimit_lt r.owner)
  rw [← Bool.not_eq_true] at hfits
  split_ifs with hover hfit hfit
  · exact absurd hover (not_or.2 ⟨not_le.2 hfit.1, hfits.2 hfit.2⟩)
  · rfl
  · rfl
  · obtain ⟨hmessages, hbytes⟩ := not_or.1 hover
    exact absurd ⟨not_le.1 hmessages, hfits.1 hbytes⟩ hfit

theorem admit_spec (h : Exact state out) :
    state.admitReservation r = .ok (state.messages + 1, state.bytes + r.bytes) ∧ Admitted state r ∨
      state.admitReservation r = .error .busy ∧ ¬ Admitted state r := by
  have h1 : channelMessages < 2 ^ 64 := by decide
  have h2 : queueBytes < 2 ^ 64 := by decide
  have h3 : ownerQueueBytes < 2 ^ 64 := by decide
  unfold admitReservation checkedAdd
  by_cases hm : state.messages + 1 < 2 ^ 64
  swap
  · rw [if_neg hm]
    exact .inr ⟨rfl, fun had => by have := had.messages; omega⟩
  by_cases hb : state.bytes + r.bytes < 2 ^ 64
  swap
  · rw [if_pos hm, if_neg hb]
    exact .inr ⟨rfl, fun had => by have := had.bytes; omega⟩
  rw [if_pos hm, if_pos hb]
  dsimp only
  by_cases htotal : channelMessages < state.messages + 1 ∨ queueBytes < state.bytes + r.bytes
  · rw [if_pos htotal]
    exact .inr ⟨rfl, fun had => by have := had.messages; have := had.bytes; omega⟩
  rw [if_neg htotal]
  by_cases hactive : (Assoc.find state.owners r.owner).isNone = true ∧ maxActiveOwners ≤ state.owners.length
  · rw [if_pos hactive]
    refine .inr ⟨rfl, fun had => ?_⟩
    have := had.activeOwners (Option.isNone_iff_eq_none.1 hactive.1)
    omega
  rw [if_neg hactive]
  change (if ownerQueueMessages ≤ (charged state r.owner).messages ∨
    exceeds (charged state r.owner).bytes r.bytes ownerQueueBytes = true then _ else _) = _ ∧ _ ∨
    (if ownerQueueMessages ≤ (charged state r.owner).messages ∨
    exceeds (charged state r.owner).bytes r.bytes ownerQueueBytes = true then _ else _) = _ ∧ _
  have hexceeds := exceeds_eq_false (a := (charged state r.owner).bytes) (b := r.bytes) h3
  by_cases howner : ownerQueueMessages ≤ (charged state r.owner).messages ∨
      exceeds (charged state r.owner).bytes r.bytes ownerQueueBytes = true
  · rw [if_pos howner]
    refine .inr ⟨rfl, fun had => ?_⟩
    rcases howner with howner | howner
    · exact absurd had.ownerMessages (not_lt.2 howner)
    · rw [hexceeds.2 had.ownerBytes] at howner
      cases howner
  rw [if_neg howner]
  obtain ⟨hmessages, hbytes⟩ := not_or.1 howner
  have hbytes := hexceeds.1 (Bool.not_eq_true _ ▸ hbytes)
  have hrest : (r.writerClass = .bulk → state.bulkMessages + 1 ≤ bulkQueueMessages ∧
        state.bulkBytes + r.bytes ≤ bulkQueueBytes ∧
        (charged state r.owner).bulkMessages < ownerBulkMessages ∧
        (charged state r.owner).bulkBytes + r.bytes ≤ ownerBulkBytes) →
      (r.writerClass = .control →
        (charged state r.owner).messages - (charged state r.owner).bulkMessages < ownerControlMessages ∧
        (charged state r.owner).bytes - (charged state r.owner).bulkBytes + r.bytes ≤
          controlLimit r.owner) → Admitted state r := fun hbulk hcontrol =>
    { messages := by omega
      bytes := by omega
      activeOwners := fun hnone => not_le.1 fun hle => hactive ⟨Option.isNone_iff_eq_none.2 hnone, hle⟩
      ownerMessages := not_le.1 hmessages
      ownerBytes := hbytes
      bulk := hbulk
      control := hcontrol }
  change (state.admitClass (charged state r.owner) r >>= _) = _ ∧ _ ∨
    (state.admitClass (charged state r.owner) r >>= _) = _ ∧ _
  cases hclass : r.writerClass with
  | bulk =>
    rcases admitClass_bulk hclass with
      ⟨hok, hfit⟩ | ⟨hbusy, hfit⟩
    · rw [hok]
      exact .inl ⟨rfl, hrest (fun _ => hfit) fun hno => nomatch hclass.symm.trans hno⟩
    · rw [hbusy]
      exact .inr ⟨rfl, fun had => hfit (had.bulk hclass)⟩
  | control =>
    rw [admitClass_control hclass h.bulk_le]
    split_ifs with hfit
    · exact .inl ⟨rfl, hrest (fun hno => nomatch hclass.symm.trans hno) fun _ => hfit⟩
    · exact .inr ⟨rfl, fun had => hfit (had.control hclass)⟩

theorem add_ok (h : a + b < 2 ^ 64) : add a b = .ok (a + b) := if_pos h

theorem sub_ok (h : b ≤ a) : sub a b = .ok (a - b) := if_pos h

theorem weight_bulk (hclass : r.writerClass = .bulk) :
    r.weight .bulkMessages = 1 ∧ r.weight .bulkBytes = r.bytes := by
  simp [Reservation.weight, hclass]

theorem weight_control (hclass : r.writerClass = .control) :
    r.weight .bulkMessages = 0 ∧ r.weight .bulkBytes = 0 := by
  simp [Reservation.weight, hclass]

theorem forall_counter {p : Counter → Prop} (messages : p .messages) (bytes : p .bytes)
    (bulkMessages : p .bulkMessages) (bulkBytes : p .bulkBytes) (c : Counter) : p c := by
  cases c <;> assumption

theorem chargeUsage_spec (h : ∀ c, usage.count c + r.weight c < 2 ^ 64) :
    ∃ usage', chargeUsage usage r = .ok usage' ∧ ∀ c, usage'.count c = usage.count c + r.weight c := by
  have hm : usage.messages + 1 < 2 ^ 64 := h .messages
  have hb : usage.bytes + r.bytes < 2 ^ 64 := h .bytes
  unfold chargeUsage
  rw [add_ok hm, add_ok hb]
  cases hclass : r.writerClass with
  | control =>
    obtain ⟨hwm, hwb⟩ := weight_control hclass
    exact ⟨_, rfl, forall_counter rfl rfl (by rw [hwm]; rfl) (by rw [hwb]; rfl)⟩
  | bulk =>
    obtain ⟨hwm, hwb⟩ := weight_bulk hclass
    have hbm : usage.bulkMessages + 1 < 2 ^ 64 := hwm ▸ h .bulkMessages
    have hbb : usage.bulkBytes + r.bytes < 2 ^ 64 := hwb ▸ h .bulkBytes
    change ∃ usage', (add usage.bulkMessages 1 >>= fun bulkMessages =>
      add usage.bulkBytes r.bytes >>= fun bulkBytes => _) = _ ∧ _
    rw [add_ok hbm, add_ok hbb]
    exact ⟨_, rfl, forall_counter rfl rfl (by rw [hwm]; rfl) (by rw [hwb]; rfl)⟩

theorem Admitted.charge (had : Admitted state r) (h : Exact state out) :
    ∃ state', state.charge (state.messages + 1) (state.bytes + r.bytes) r = .ok state' ∧
      (∀ c, state'.count c = state.count c + r.weight c) ∧
      ∃ usage, state'.owners = Assoc.set state.owners r.owner usage ∧
        ∀ c, usage.count c = (charged state r.owner).count c + r.weight c := by
  have h64 : channelMessages < 2 ^ 64 ∧ queueBytes < 2 ^ 64 := by decide
  have hown : (charged state r.owner).messages + 1 < 2 ^ 64 ∧
      (charged state r.owner).bytes + r.bytes < 2 ^ 64 := by
    have h24 : ownerQueueMessages < 2 ^ 63 ∧ ownerQueueBytes < 2 ^ 63 := by decide
    have hmessages := had.ownerMessages
    have hbytes := had.ownerBytes
    omega
  have hsmall : ∀ c, (charged state r.owner).count c + r.weight c < 2 ^ 64 := by
    intro c
    obtain ⟨hbm, hbb⟩ := h.bulk_le
    obtain ⟨hwm, hwb⟩ := bulk_weight_le r
    cases c with
    | messages => exact hown.1
    | bytes => exact hown.2
    | bulkMessages => exact (Nat.add_le_add hbm hwm).trans_lt hown.1
    | bulkBytes => exact (Nat.add_le_add hbb hwb).trans_lt hown.2
  obtain ⟨usage, husage, hcount⟩ := chargeUsage_spec hsmall
  unfold QueueState.charge
  cases hclass : r.writerClass with
  | control =>
    obtain ⟨hwm, hwb⟩ := weight_control hclass
    change ∃ state', (chargeUsage (charged state r.owner) r >>= _) = _ ∧ _
    rw [husage]
    exact ⟨_, rfl, forall_counter rfl rfl (by rw [hwm]; rfl) (by rw [hwb]; rfl), usage, rfl, hcount⟩
  | bulk =>
    obtain ⟨hwm, hwb⟩ := weight_bulk hclass
    obtain ⟨hbm, hbb, -⟩ := had.bulk hclass
    have h56 : bulkQueueMessages < 2 ^ 64 ∧ bulkQueueBytes < 2 ^ 64 := by decide
    dsimp only
    rw [add_ok (show state.bulkMessages + 1 < 2 ^ 64 by omega),
      add_ok (show state.bulkBytes + r.bytes < 2 ^ 64 by omega)]
    change ∃ state', (chargeUsage (charged state r.owner) r >>= _) = _ ∧ _
    rw [husage]
    exact ⟨_, rfl, forall_counter rfl rfl (by rw [hwm]; rfl) (by rw [hwb]; rfl), usage, rfl, hcount⟩

theorem find_elim : (Assoc.find state.owners owner).elim 0 (·.count c) = (charged state owner).count c := by
  unfold charged
  cases Assoc.find state.owners owner with
  | none => cases c <;> rfl
  | some usage => rfl

theorem Exact.elim_eq (h : Exact state out) (owner : WriterOwner) (c : Counter) :
    state.count c = (charged state owner).count c + ((Assoc.erase state.owners owner).map (·.2.count c)).sum := by
  rw [h.owners c, Assoc.sum_erase h.distinct (fun usage => usage.count c) owner, find_elim]

theorem Exact.grant (h : Exact state out) (hcount : ∀ c, state'.count c = state.count c + r.weight c)
    (howners : state'.owners = Assoc.set state.owners r.owner usage)
    (husage : ∀ c, usage.count c = (charged state r.owner).count c + r.weight c) :
    Exact state' (r :: out) where
  total c := by
    rw [hcount, h.total, weigh_cons, Nat.add_comm]
  owners c := by
    have hsum := h.elim_eq r.owner c
    rw [hcount, howners, Assoc.set, map_cons, sum_cons, husage, hsum]
    omega
  distinct := by
    rw [howners]
    exact Assoc.nodup_set h.distinct
  missing owner := by
    rw [howners, Assoc.find_set, ofOwner_cons]
    by_cases ho : owner = r.owner
    · rw [if_pos ho, if_pos ho.symm]
      exact iff_of_false (by rintro ⟨⟩) (cons_ne_nil _ _)
    · rw [if_neg ho, if_neg (Ne.symm ho)]
      exact h.missing owner
  usage owner usage' hfind c := by
    rw [howners, Assoc.find_set] at hfind
    rw [ofOwner_cons]
    by_cases ho : owner = r.owner
    · rw [if_pos ho] at hfind
      cases hfind
      rw [if_pos ho.symm, weigh_cons, husage, h.charged_count, ho, Nat.add_comm]
    · rw [if_neg ho] at hfind
      rw [if_neg (Ne.symm ho)]
      exact h.usage owner usage' hfind c

theorem length_set_le {l : List (WriterOwner × OwnerUsage)} : (Assoc.set l owner usage).length ≤ l.length + 1 :=
  Nat.succ_le_succ (length_filter_le _ _)

theorem Ceilings.grant (hc : Ceilings state) (h : Exact state out) (had : Admitted state r)
    (hcount : ∀ c, state'.count c = state.count c + r.weight c)
    (howners : state'.owners = Assoc.set state.owners r.owner usage)
    (husage : ∀ c, usage.count c = (charged state r.owner).count c + r.weight c) : Ceilings state' := by
  have hm : state'.messages = state.messages + 1 := hcount .messages
  have hb : state'.bytes = state.bytes + r.bytes := hcount .bytes
  have hbm : state'.bulkMessages = state.bulkMessages + r.weight .bulkMessages := hcount .bulkMessages
  have hbb : state'.bulkBytes = state.bulkBytes + r.weight .bulkBytes := hcount .bulkBytes
  have hum : usage.messages = (charged state r.owner).messages + 1 := husage .messages
  have hub : usage.bytes = (charged state r.owner).bytes + r.bytes := husage .bytes
  have hubm : usage.bulkMessages = (charged state r.owner).bulkMessages + r.weight .bulkMessages :=
    husage .bulkMessages
  have hubb : usage.bulkBytes = (charged state r.owner).bulkBytes + r.weight .bulkBytes := husage .bulkBytes
  have hle := @Exact.bulk_le _ _ r.owner h
  have hold : (charged state r.owner).bulkMessages ≤ ownerBulkMessages ∧
      (charged state r.owner).bulkBytes ≤ ownerBulkBytes ∧
      (charged state r.owner).messages - (charged state r.owner).bulkMessages ≤ ownerControlMessages ∧
      (charged state r.owner).bytes - (charged state r.owner).bulkBytes ≤ controlLimit r.owner := by
    unfold charged
    cases hfind : Assoc.find state.owners r.owner with
    | none => exact ⟨Nat.zero_le _, Nat.zero_le _, Nat.zero_le _, Nat.zero_le _⟩
    | some old => exact (hc.owner r.owner old hfind).2.2
  have hnew : usage.bulkMessages ≤ ownerBulkMessages ∧ usage.bulkBytes ≤ ownerBulkBytes ∧
      usage.messages - usage.bulkMessages ≤ ownerControlMessages ∧
      usage.bytes - usage.bulkBytes ≤ controlLimit r.owner := by
    rw [hum, hub, hubm, hubb]
    cases hclass : r.writerClass with
    | control =>
      rw [(weight_control hclass).1, (weight_control hclass).2]
      have := had.control hclass
      omega
    | bulk =>
      rw [(weight_bulk hclass).1, (weight_bulk hclass).2]
      have := had.bulk hclass
      omega
  have hbulk : state'.bulkMessages ≤ bulkQueueMessages ∧ state'.bulkBytes ≤ bulkQueueBytes := by
    rw [hbm, hbb]
    cases hclass : r.writerClass with
    | control =>
      rw [(weight_control hclass).1, (weight_control hclass).2]
      exact ⟨hc.bulkMessages, hc.bulkBytes⟩
    | bulk =>
      rw [(weight_bulk hclass).1, (weight_bulk hclass).2]
      have := had.bulk hclass
      omega
  refine ⟨hm ▸ had.messages, hb ▸ had.bytes, hbulk.1, hbulk.2, ?_, ?_⟩
  · rw [howners]
    cases hfind : Assoc.find state.owners r.owner with
    | none => exact length_set_le.trans (had.activeOwners hfind)
    | some old =>
      have hperm := (Assoc.perm_of_find h.distinct hfind).length_eq
      rw [length_cons] at hperm
      rw [Assoc.set, length_cons, ← hperm]
      exact hc.activeOwners
  · intro owner usage' hfind
    rw [howners, Assoc.find_set] at hfind
    split_ifs at hfind with ho
    · cases hfind
      subst ho
      refine ⟨?_, ?_, hnew⟩
      · rw [hum]
        exact had.ownerMessages
      · rw [hub]
        exact had.ownerBytes
    · exact hc.owner owner usage' hfind

theorem reserve_spec (h : Exact state out) (hc : Ceilings state) :
    state.reserve r = (.error .busy, state) ∧ ¬ Admitted state r ∨
      ∃ state', state.reserve r = (.ok (), state') ∧ Exact state' (r :: out) ∧ Ceilings state' := by
  unfold reserve
  rcases admit_spec (r := r) h with ⟨hadmitted, had⟩ | ⟨hbusy, hnot⟩
  · obtain ⟨state', hcharge, hcount, usage, howners, husage⟩ := had.charge h
    rw [hadmitted]
    dsimp only
    rw [hcharge]
    exact .inr ⟨state', rfl, h.grant hcount howners husage, hc.grant h had hcount howners husage⟩
  · rw [hbusy]
    exact .inl ⟨rfl, hnot⟩

end

end Obsetync.Writer
