import Obsetync.Writer.Accounting

namespace Obsetync.Writer

open QueueState List

section

variable {state state' : QueueState} {rest : List Reservation} {r : Reservation} {c : Counter}
  {owner : WriterOwner} {usage : OwnerUsage}

theorem refundUsage_spec (h : ∀ c, r.weight c ≤ usage.count c) :
    ∃ usage', refundUsage usage r = .ok usage' ∧ ∀ c, usage'.count c = usage.count c - r.weight c := by
  have hm : 1 ≤ usage.messages := h .messages
  have hb : r.bytes ≤ usage.bytes := h .bytes
  unfold refundUsage
  rw [sub_ok hm, sub_ok hb]
  cases hclass : r.writerClass with
  | control =>
    obtain ⟨hwm, hwb⟩ := weight_control hclass
    exact ⟨_, rfl, forall_counter rfl rfl (by rw [hwm]; rfl) (by rw [hwb]; rfl)⟩
  | bulk =>
    obtain ⟨hwm, hwb⟩ := weight_bulk hclass
    have hbm : 1 ≤ usage.bulkMessages := hwm ▸ h .bulkMessages
    have hbb : r.bytes ≤ usage.bulkBytes := hwb ▸ h .bulkBytes
    change ∃ usage', (sub usage.bulkMessages 1 >>= fun bulkMessages =>
      sub usage.bulkBytes r.bytes >>= fun bulkBytes => _) = _ ∧ _
    rw [sub_ok hbm, sub_ok hbb]
    exact ⟨_, rfl, forall_counter rfl rfl (by rw [hwm]; rfl) (by rw [hwb]; rfl)⟩

def refunded (owners : List (WriterOwner × OwnerUsage)) (owner : WriterOwner) (usage : OwnerUsage) :
    List (WriterOwner × OwnerUsage) :=
  if usage.messages = 0 then Assoc.erase owners owner else Assoc.set owners owner usage

theorem release_eq (h : ∀ c, r.weight c ≤ state.count c)
    (hfind : Assoc.find state.owners r.owner = some usage)
    (hrefund : refundUsage usage r = .ok usage') :
    ∃ state', state.release r = .ok state' ∧ (∀ c, state'.count c = state.count c - r.weight c) ∧
      state'.owners = refunded state.owners r.owner usage' := by
  have hm : 1 ≤ state.messages := h .messages
  have hb : r.bytes ≤ state.bytes := h .bytes
  unfold release
  rw [sub_ok hm, sub_ok hb]
  cases hclass : r.writerClass with
  | control =>
    obtain ⟨hwm, hwb⟩ := weight_control hclass
    refine ⟨{ state with
      messages := state.messages - 1, bytes := state.bytes - r.bytes,
      owners := refunded state.owners r.owner usage' }, ?_,
      forall_counter rfl rfl (by rw [hwm]; rfl) (by rw [hwb]; rfl), rfl⟩
    dsimp only [bind, Except.bind]
    rw [hfind]
    dsimp only
    rw [hrefund, refunded]
    change (if _ then _ else _) = _
    split_ifs <;> rfl
  | bulk =>
    obtain ⟨hwm, hwb⟩ := weight_bulk hclass
    have hbm : 1 ≤ state.bulkMessages := hwm ▸ h .bulkMessages
    have hbb : r.bytes ≤ state.bulkBytes := hwb ▸ h .bulkBytes
    refine ⟨{ messages := state.messages - 1, bytes := state.bytes - r.bytes,
              bulkMessages := state.bulkMessages - 1, bulkBytes := state.bulkBytes - r.bytes,
              owners := refunded state.owners r.owner usage' }, ?_,
      forall_counter rfl rfl (by rw [hwm]; rfl) (by rw [hwb]; rfl), rfl⟩
    change (sub state.bulkMessages 1 >>= fun bulkMessages =>
      sub state.bulkBytes r.bytes >>= fun bulkBytes => _) = _
    rw [sub_ok hbm, sub_ok hbb]
    dsimp only [bind, Except.bind, pure, Except.pure]
    rw [hfind]
    dsimp only
    rw [hrefund, refunded]
    change (if _ then _ else _) = _
    split_ifs <;> rfl

theorem weigh_messages : weigh l .messages = l.length := by
  induction l with
  | nil => rfl
  | cons r l ih =>
    rw [weigh_cons, ih, length_cons, Nat.add_comm]
    rfl

theorem find_refunded {owners : List (WriterOwner × OwnerUsage)} :
    Assoc.find (refunded owners owner usage) o =
      if o = owner then (if usage.messages = 0 then none else some usage) else Assoc.find owners o := by
  unfold refunded
  split_ifs with hzero ho ho
  · rw [Assoc.find_erase, if_pos ho]
  · rw [Assoc.find_erase, if_neg ho]
  · rw [Assoc.find_set, if_pos ho]
  · rw [Assoc.find_set, if_neg ho]

theorem Exact.refund (h : Exact state (r :: rest))
    (hfind : Assoc.find state.owners r.owner = some usage)
    (husage : ∀ c, usage'.count c = weigh (ofOwner rest r.owner) c)
    (hcount : ∀ c, state'.count c = state.count c - r.weight c)
    (howners : state'.owners = refunded state.owners r.owner usage') : Exact state' rest := by
  have hold : ∀ c, usage.count c = r.weight c + usage'.count c := by
    intro c
    rw [h.usage r.owner usage hfind, ofOwner_cons, if_pos rfl, weigh_cons, husage]
  have hzero : usage'.messages = 0 ↔ ofOwner rest r.owner = [] := by
    have := husage .messages
    rw [weigh_messages] at this
    rw [← length_eq_zero_iff, ← this]
    rfl
  refine ⟨fun c => ?_, fun c => ?_, ?_, fun o => ?_, fun o u hu c => ?_⟩
  · rw [hcount, h.total, weigh_cons, Nat.add_sub_cancel_left]
  · have hsum := h.elim_eq r.owner c
    rw [charged, hfind, Option.getD_some, hold] at hsum
    have hkept : (state'.owners.map (·.2.count c)).sum =
        usage'.count c + ((Assoc.erase state.owners r.owner).map (·.2.count c)).sum := by
      rw [howners, refunded]
      split_ifs with hnone
      · rw [husage, hzero.1 hnone]
        exact (Nat.zero_add _).symm
      · rfl
    rw [hcount, hkept, hsum]
    omega
  · rw [howners, refunded]
    split_ifs
    · exact Assoc.nodup_erase h.distinct
    · exact Assoc.nodup_set h.distinct
  · rw [howners, find_refunded]
    by_cases ho : o = r.owner
    · rw [if_pos ho, ho, ← hzero]
      split_ifs with hnone
      · exact iff_of_true rfl hnone
      · exact iff_of_false (fun h => nomatch h) hnone
    · have hmissing := h.missing o
      rw [ofOwner_cons, if_neg (Ne.symm ho)] at hmissing
      rw [if_neg ho]
      exact hmissing
  · rw [howners, find_refunded] at hu
    by_cases ho : o = r.owner
    · rw [if_pos ho] at hu
      split_ifs at hu
      cases hu
      rw [ho]
      exact husage c
    · rw [if_neg ho] at hu
      have husage' := h.usage o u hu c
      rwa [ofOwner_cons, if_neg (Ne.symm ho)] at husage'

theorem Ceilings.refund (hc : Ceilings state) (h : Exact state (r :: rest))
    (hfind : Assoc.find state.owners r.owner = some usage)
    (husage : ∀ c, usage'.count c = weigh (ofOwner rest r.owner) c)
    (hcount : ∀ c, state'.count c = state.count c - r.weight c)
    (howners : state'.owners = refunded state.owners r.owner usage') : Ceilings state' := by
  have hle : ∀ c, state'.count c ≤ state.count c := fun c => hcount c ▸ Nat.sub_le _ _
  have hold : ∀ c, usage.count c = r.weight c + usage'.count c := by
    intro c
    rw [h.usage r.owner usage hfind, ofOwner_cons, if_pos rfl, weigh_cons, husage]
  have hm : usage.messages = 1 + usage'.messages := hold .messages
  have hb : usage.bytes = r.bytes + usage'.bytes := hold .bytes
  have hbm : usage.bulkMessages = r.weight .bulkMessages + usage'.bulkMessages := hold .bulkMessages
  have hbb : usage.bulkBytes = r.weight .bulkBytes + usage'.bulkBytes := hold .bulkBytes
  have hweight := bulk_weight_le r
  change _ ≤ 1 ∧ _ ≤ r.bytes at hweight
  refine ⟨(hle .messages).trans hc.messages, (hle .bytes).trans hc.bytes,
    (hle .bulkMessages).trans hc.bulkMessages, (hle .bulkBytes).trans hc.bulkBytes, ?_, ?_⟩
  · have hlen := (Assoc.perm_of_find h.distinct hfind).length_eq
    rw [length_cons] at hlen
    have hactive := hc.activeOwners
    rw [howners, refunded]
    split_ifs
    · omega
    · rw [Assoc.set, length_cons]
      omega
  · intro o u hu
    rw [howners, find_refunded] at hu
    by_cases ho : o = r.owner
    · rw [if_pos ho] at hu
      split_ifs at hu
      cases hu
      subst ho
      have := hc.owner r.owner usage hfind
      omega
    · rw [if_neg ho] at hu
      exact hc.owner o u hu

theorem release_spec (h : Exact state (r :: rest)) (hc : Ceilings state) :
    ∃ state', state.release r = .ok state' ∧ Exact state' rest ∧ Ceilings state' := by
  obtain ⟨usage, hfind⟩ : ∃ usage, Assoc.find state.owners r.owner = some usage := by
    apply Option.ne_none_iff_exists'.1
    intro hnone
    have hnil := (h.missing r.owner).1 hnone
    rw [ofOwner_cons, if_pos rfl] at hnil
    cases hnil
  have hold : ∀ c, usage.count c = r.weight c + weigh (ofOwner rest r.owner) c := by
    intro c
    rw [h.usage r.owner usage hfind, ofOwner_cons, if_pos rfl, weigh_cons]
  obtain ⟨usage', hrefund, hcount'⟩ := refundUsage_spec fun c => (hold c).symm ▸ Nat.le_add_right _ _
  have husage : ∀ c, usage'.count c = weigh (ofOwner rest r.owner) c := fun c => by
    rw [hcount', hold, Nat.add_sub_cancel_left]
  have hweight : ∀ c, r.weight c ≤ state.count c := fun c => by
    rw [h.total, weigh_cons]
    exact Nat.le_add_right _ _
  obtain ⟨state', hrelease, hcount, howners⟩ := release_eq hweight hfind hrefund
  exact ⟨state', hrelease, h.refund hfind husage hcount howners, hc.refund h hfind husage hcount howners⟩

theorem weigh_filter_add_le (p : Reservation → Bool)
    (hle : ∀ r : Reservation, r.weight c ≤ r.weight c') :
    weigh (l.filter p) c' + weigh l c ≤ weigh l c' + weigh (l.filter p) c := by
  induction l with
  | nil => exact le_rfl
  | cons r l ih =>
    have hr := hle r
    rw [filter_cons]
    split_ifs
    · rw [weigh_cons, weigh_cons, weigh_cons, weigh_cons]
      omega
    · rw [weigh_cons, weigh_cons]
      omega

/-- As long as the control messages stay below the share that bulk messages cannot take, every
owner's next control message is let through. -/
theorem control_admitted (h : Exact state rest) (hc : Ceilings state) {bytes : Nat}
    (hmessages : state.messages - state.bulkMessages < channelMessages - bulkQueueMessages)
    (hbytes : state.bytes - state.bulkBytes + bytes ≤ queueBytes - bulkQueueBytes) :
    Admitted state ⟨owner, .control, bytes⟩ := by
  have hshare : ∀ c, (charged state owner).count c ≤ state.count c := fun c => by
    rw [h.charged_count, h.total]
    exact weigh_filter_le _
  have hm : (charged state owner).messages + state.bulkMessages ≤
      state.messages + (charged state owner).bulkMessages := by
    have hle := weigh_filter_add_le (l := rest) (c := .bulkMessages)
      (·.owner = owner) fun r => (bulk_weight_le r).1
    rw [← ofOwner, ← h.charged_count, ← h.charged_count, ← h.total, ← h.total] at hle
    exact hle
  have hb : (charged state owner).bytes + state.bulkBytes ≤
      state.bytes + (charged state owner).bulkBytes := by
    have hle := weigh_filter_add_le (l := rest) (c := .bulkBytes)
      (·.owner = owner) fun r => (bulk_weight_le r).2
    rw [← ofOwner, ← h.charged_count, ← h.charged_count, ← h.total, ← h.total] at hle
    exact hle
  have hactive := h.length_owners_le
  have hbulkMessages := hc.bulkMessages
  have hbulkBytes := hc.bulkBytes
  have hownerBulk : (charged state owner).bulkMessages ≤ ownerBulkMessages ∧
      (charged state owner).bulkBytes ≤ ownerBulkBytes := by
    unfold charged
    cases hfind : Assoc.find state.owners owner with
    | none => exact ⟨Nat.zero_le _, Nat.zero_le _⟩
    | some usage => exact ⟨(hc.owner owner usage hfind).2.2.1, (hc.owner owner usage hfind).2.2.2.1⟩
  have hlimit : ownerControlBytes ≤ controlLimit owner := by
    cases owner with
    | internal => decide
    | authenticated key => exact le_rfl
  simp only [channelMessages, bulkQueueMessages, queueBytes, bulkQueueBytes, ownerBulkMessages,
    ownerBulkBytes, ownerControlBytes] at *
  exact
    { messages := by rw [channelMessages]; omega
      bytes := by rw [queueBytes]; dsimp only; omega
      activeOwners := fun _ => by rw [maxActiveOwners]; omega
      ownerMessages := by rw [ownerQueueMessages]; dsimp only; omega
      ownerBytes := by rw [ownerQueueBytes, queueBytes]; dsimp only; omega
      bulk := by rintro ⟨⟩
      control := fun _ => by rw [ownerControlMessages]; dsimp only; omega }

end

theorem step_spec {desk : Desk} (h : Exact desk.state desk.outstanding) (hc : Ceilings desk.state)
    (event : Event) : ∃ desk', desk.step event = .ok desk' ∧
      Exact desk'.state desk'.outstanding ∧ Ceilings desk'.state := by
  cases event with
  | reserve r =>
    unfold Desk.step
    dsimp only
    rcases reserve_spec (r := r) h hc with ⟨hbusy, -⟩ | ⟨state', hok, h', hc'⟩
    · rw [hbusy]
      exact ⟨desk, rfl, h, hc⟩
    · rw [hok]
      exact ⟨_, rfl, h', hc'⟩
  | release r =>
    unfold Desk.step
    dsimp only
    split_ifs with hmem
    · obtain ⟨state', hrelease, h', hc'⟩ := release_spec (h.perm (perm_cons_erase hmem)) hc
      rw [hrelease]
      exact ⟨_, rfl, h', hc'⟩
    · exact ⟨desk, rfl, h, hc⟩

theorem run_spec {desk : Desk} (h : Exact desk.state desk.outstanding) (hc : Ceilings desk.state)
    (events : List Event) : ∃ desk', desk.run events = .ok desk' ∧
      Exact desk'.state desk'.outstanding ∧ Ceilings desk'.state := by
  induction events generalizing desk with
  | nil => exact ⟨desk, rfl, h, hc⟩
  | cons event events ih =>
    obtain ⟨next, hstep, h', hc'⟩ := step_spec h hc event
    obtain ⟨desk', hrun, hend⟩ := ih h' hc'
    refine ⟨desk', ?_, hend⟩
    rw [Desk.run, foldlM_cons, hstep]
    exact hrun

/-- Every sequence of reservations and releases runs without a panic; the counters are the sums
over the outstanding reservations and over the owners; the ceilings hold and leave control messages
their share; a refusal changes nothing; and without outstanding reservations the queue is empty. -/
theorem queue_accounting (events : List Event) : ∃ desk : Desk, Desk.run {} events = .ok desk ∧
    (∀ c, desk.state.count c = weigh desk.outstanding c) ∧
    (∀ c, desk.state.count c = (desk.state.owners.map (·.2.count c)).sum) ∧
    (∀ owner usage, Assoc.find desk.state.owners owner = some usage →
      ∀ c, usage.count c = weigh (ofOwner desk.outstanding owner) c) ∧
    Ceilings desk.state ∧
    (∀ owner bytes, desk.state.messages - desk.state.bulkMessages < channelMessages - bulkQueueMessages →
      desk.state.bytes - desk.state.bulkBytes + bytes ≤ queueBytes - bulkQueueBytes →
        (desk.state.reserve ⟨owner, .control, bytes⟩).1 = .ok ()) ∧
    (∀ r, (desk.state.reserve r).1 = .ok () ∨
      (desk.state.reserve r).1 = .error .busy ∧ (desk.state.reserve r).2 = desk.state) ∧
    (desk.outstanding = [] → desk.state = {}) := by
  obtain ⟨desk, hrun, h, hc⟩ := @run_spec {} exact_empty ceilings_empty events
  refine ⟨desk, hrun, h.total, h.owners, h.usage, hc, fun owner bytes hmessages hbytes => ?_, fun r => ?_,
    fun hnil => ?_⟩
  · rcases reserve_spec (r := ⟨owner, .control, bytes⟩) h hc with ⟨-, hnot⟩ | ⟨state', hok, -⟩
    · exact absurd (control_admitted h hc hmessages hbytes) hnot
    · rw [hok]
  · rcases reserve_spec (r := r) h hc with ⟨hbusy, -⟩ | ⟨state', hok, -⟩
    · rw [hbusy]
      exact .inr ⟨rfl, rfl⟩
    · rw [hok]
      exact .inl rfl
  · rw [hnil] at h
    exact h.eq_empty

end Obsetync.Writer
