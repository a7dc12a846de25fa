import Obsetync.SyncBase.Runs

namespace Obsetync.SyncBase
open List

section
variable {env : Env} {b : Base} {origin : BaseState} {calls : List Item} {waiting : List Waiting}
  {done flight rest : List Traced} {decided : Bool}

theorem mem_behind_append (h : x ∈ behind n (calls ++ [item])) : x ∈ behind n calls ∨ x = item := by
  rw [behind, dropWhile_append] at h
  split_ifs at h with hnil
  · right
    have hx := ((drop_suffix _ _).trans (dropWhile_suffix _)).subset h
    exact mem_singleton.1 hx
  · cases hdrop : calls.dropWhile fun item => !item.isQueued n with
    | nil => exact absurd (by rw [hdrop]; rfl) hnil
    | cons mark tail =>
      rw [hdrop] at h
      rw [behind, hdrop]
      exact (mem_append.1 h).imp (fun h => h) mem_singleton.1

theorem ChainOk.call (h : ChainOk b decided waiting calls)
    (hload : ∀ t ∈ b.writeChain, t.work ≠ .load) (item : Item) :
    ChainOk b decided waiting (calls ++ [item]) :=
  { h with loads := fun t ht hwork => absurd hwork (hload t ht) }

theorem Core.not_isQueued (h : Core env b origin calls waiting done flight rest) :
    ∀ item ∈ calls, item.isQueued b.promises = false := by
  rw [h.calls_eq]
  intro item hitem
  obtain ⟨t, ht, rfl⟩ := mem_map.1 hitem
  cases t with
  | queued promise =>
    have hlt := (h.bounded _ ht).2 promise rfl
    exact decide_eq_false hlt.ne
  | silent call => rfl
  | recorded call row => rfl
  | publication promise p v => rfl

theorem ChainOk.push (h : ChainOk b decided waiting calls)
    (hcore : Core env b origin calls waiting done flight rest)
    (hne : decided = true → b.writeChain ≠ []) {work : Work} {item : Item} {b' : Base}
    (hb : b'.writeChain = b.writeChain ++ [⟨b.promises, work⟩])
    (hpromises : b'.promises = b.promises + 1) (hversion : b.mutationVersion ≤ b'.mutationVersion)
    (hresolved : b'.resolved = b.resolved) (hfresh : ∀ q ∈ (⟨b.promises, work⟩ : Task).waiting,
      b.mutationVersion < q.version ∧ q.version ≤ b'.mutationVersion ∧
      (q.p.entries.all fun row => validateOperation row.operation) ∧
      ∀ t ∈ b.writeChain, t.work ≠ .load)
    (hitem : (⟨b.promises, work⟩ : Task).waiting = none → ∃ n, item = .queued n) :
    ChainOk b' decided (waiting ++ (⟨b.promises, work⟩ : Task).waiting.toList)
      (calls ++ [item]) := by
  have hmem {t : Task} (ht : t ∈ b'.writeChain) : t ∈ b.writeChain ∨ t = ⟨b.promises, work⟩ := by
    rw [hb] at ht
    exact (mem_append.1 ht).imp (fun h => h) mem_singleton.1
  have hlast : [(⟨b.promises, work⟩ : Task)].filterMap Task.waiting =
      (⟨b.promises, work⟩ : Task).waiting.toList := by
    cases hw : (⟨b.promises, work⟩ : Task).waiting with
    | none => exact filterMap_cons_none hw
    | some q => exact filterMap_cons_some hw
  constructor
  · rw [h.waiting_eq, ← hlast, ← filterMap_append, hb]
    cases decided with
    | false => rfl
    | true =>
      rw [if_pos rfl, if_pos rfl, tail_append_of_ne_nil (hne rfl)]
  · rw [hb, pairwise_append]
    refine ⟨h.sorted, pairwise_singleton _ _, ?_⟩
    intro s hs t ht
    obtain rfl := mem_singleton.1 ht
    constructor
    · exact (h.bounded s hs).1
    · intro q hq r hr
      exact ((h.bounded s hs).2 q hq).trans_lt (hfresh r hr).1
    · intro hload
      cases hw : (⟨b.promises, work⟩ : Task).waiting with
      | none => rfl
      | some q => exact absurd hload ((hfresh q hw).2.2.2 s hs)
  · intro t ht
    rw [hpromises]
    rcases hmem ht with ht | rfl
    · exact ⟨(h.bounded t ht).1.trans (Nat.lt_succ_self _),
        fun q hq => ((h.bounded t ht).2 q hq).trans hversion⟩
    · exact ⟨Nat.lt_succ_self _, fun q hq => (hfresh q hq).2.1⟩
  · intro t ht q hq
    rcases hmem ht with ht | rfl
    · exact h.valid t ht q hq
    · exact (hfresh q hq).2.2.1
  · intro n hn t ht
    rw [hresolved] at hn
    rcases hmem ht with ht | rfl
    · exact h.resolved_le n hn t ht
    · exact (hcore.settled_lt n (mem_append_right _ hn)).le
  · intro t ht hload x hx
    rcases hmem ht with ht | rfl
    · rcases mem_behind_append hx with hx | rfl
      · exact h.loads t ht hload x hx
      · cases hw : (⟨b.promises, work⟩ : Task).waiting with
        | none => exact hitem hw
        | some q => exact absurd hload ((hfresh q hw).2.2.2 t ht)
    · rcases mem_behind_append hx with hx | rfl
      · have hnil : calls.dropWhile (fun item => !item.isQueued b.promises) = [] := by
          rw [dropWhile_eq_nil_iff]
          intro item hmem
          rw [hcore.not_isQueued item hmem]
          rfl
        rw [behind, hnil] at hx
        cases hx
      · exact hitem (waiting_of_load hload)

theorem Inv.chain_ne_nil (inv : Inv env w waiting done flight rest) (h : w.base.decided = true) :
    w.base.writeChain ≠ [] := by
  rw [Base.decided] at h
  split at h
  · next hcur =>
    obtain ⟨task, tail, htask, -⟩ := inv.stage _ hcur
    rw [htask]
    exact cons_ne_nil _ _
  · cases h

theorem Inv.append {b' : Base} {waiting' : List Waiting} {items : List Item} {ts : List Traced}
    (inv : Inv env ⟨b, origin, calls⟩ waiting done flight rest)
    (hcore : Core env b' origin (calls ++ items) waiting' done flight (rest ++ ts))
    (hchain : ChainOk b' b.decided waiting' (calls ++ items)) (hcurrent : b'.current = b.current)
    (hwritable : b'.writable = b.writable) (hdurable : b'.durable = b.durable)
    (hdisk : b'.disk = b.disk) (hpublished : b'.published = b.published)
    (hqueue : b.writeChain <+: b'.writeChain) :
    Inv env ⟨b', origin, calls ++ items⟩ waiting' done flight (rest ++ ts) := by
  have hdecided : b'.decided = b.decided := by rw [Base.decided, Base.decided, hcurrent]
  constructor
  · exact hcore
  · rw [hdecided]
    exact hchain
  · intro stage hstage
    rw [hcurrent] at hstage
    obtain ⟨task, tail, htask, hok⟩ := inv.stage stage hstage
    obtain ⟨new, hnew⟩ := hqueue
    refine ⟨task, tail ++ new, by rw [← hnew, htask]; rfl, ?_⟩
    cases stage with
    | load =>
      rw [StageOk] at hok ⊢
      rw [hwritable]
      exact hok
    | digest p version =>
      rw [StageOk] at hok ⊢
      rw [hwritable]
      exact hok
    | commit operations next after =>
      rw [StageOk] at hok ⊢
      rw [hwritable, hdurable]
      exact hok
    | snapshot captured version after =>
      rw [StageOk] at hok ⊢
      rw [hwritable, hdurable]
      exact hok
    | publish rs next version =>
      rw [StageOk] at hok ⊢
      rw [hwritable, hdurable]
      obtain ⟨hf, hw, p, bytes, tail', hwork, hrs, hnext, hvalid, rfl⟩ := hok
      exact ⟨hf, hw, p, bytes, tail' ++ ts, hwork, hrs, hnext, hvalid, rfl⟩
  · exact fun h => inv.idle (hcurrent.symm.trans h)
  · constructor
    · dsimp only
      rw [hwritable, hdisk, hdurable]
      exact inv.disk.writable
    · dsimp only
      rw [hwritable, hdisk, hpublished]
      intro hw
      obtain ⟨landed, k, hpub, hdone, hk, hload, hrising⟩ := inv.disk.landed hw
      refine ⟨landed, k, hpub, hdone, hk.trans (by simp), ?_, ?_⟩
      · rw [take_append_of_le_length hk]
        exact hload
      · rw [take_append_of_le_length hk]
        exact hrising

theorem ChainOk.mem_queuedPaths (h : ChainOk b decided waiting calls) :
    ∀ q ∈ waiting, ∀ path ∈ q.p.paths, path ∈ b.queuedPaths := by
  intro q hq path hpath
  have hmem : q ∈ b.writeChain.filterMap Task.waiting := by
    rw [h.waiting_eq] at hq
    obtain ⟨t, ht, hqt⟩ := mem_filterMap.1 hq
    refine mem_filterMap.2 ⟨t, ?_, hqt⟩
    split_ifs at ht
    · exact mem_of_mem_tail ht
    · exact ht
  obtain ⟨t, ht, hqt⟩ := mem_filterMap.1 hmem
  refine mem_flatMap.2 ⟨t, ht, ?_⟩
  rw [Task.waiting] at hqt
  cases hwork : t.work with
  | publication p version bytes =>
    rw [hwork] at hqt
    cases hqt
    exact hpath
  | load =>
    rw [hwork] at hqt
    cases hqt
  | checkpoint =>
    rw [hwork] at hqt
    cases hqt
  | save =>
    rw [hwork] at hqt
    cases hqt

theorem Careful.settledLoad (h : Careful s (.setter call)) : s.settledLoad := by
  cases call <;> first | exact h | exact h.1

theorem record_eq_some {s s' : Base} (h : s.record env op = some s') :
    validateOperation op ∧ s' = { s with
      pendingOperationOwners := s.pendingOperationOwners + 1
      pendingOperationEstimatedBytes :=
        s.pendingOperationEstimatedBytes + env.estimatePendingOperationBytes op
      mutationVersion := s.mutationVersion + 1
      pendingOperations := s.pendingOperations ++
        [⟨s.mutationVersion + 1, op, env.estimatePendingOperationBytes op⟩]
      dirty := true } := by
  rw [Base.record] at h
  split_ifs at h with hw howners hvalid
  dsimp only at h
  split_ifs at h
  exact ⟨by simpa using hvalid, (Option.some.inj h).symm⟩

theorem Good.setter (h : Good env w) (hc : Careful w.base (.setter call)) :
    Good env (w.step env (.setter call)) := by
  obtain ⟨waiting, done, flight, rest, inv⟩ := h
  obtain ⟨b, origin, calls⟩ := w
  have hmeaning {state : BaseState} (hagrees : Agrees b.visible state waiting) :
      call.apply env state = (b.operationOf env call).elim state (applyBaseOperation state) :=
    hagrees.setter_apply inv.core.barriers_eq inv.chain.mem_queuedPaths hc
  rw [World.step]
  cases hset : b.setter env call with
  | none => exact ⟨waiting, done, flight, rest, inv⟩
  | some b' =>
    dsimp only
    rw [Base.setter] at hset
    split_ifs at hset with hadm
    cases hop : b.operationOf env call with
    | none =>
      rw [hop] at hset hmeaning
      obtain rfl := Option.some.inj hset
      have hcore : Core env b origin (calls ++ [.setter call]) (waiting ++ []) done flight
          (rest ++ [.silent call]) := inv.core.append (t := .silent call)
        ⟨rfl, rfl, rfl, (append_nil _).symm, rfl, (append_nil _).symm, le_rfl, le_rfl,
          by rintro _ ⟨⟩, by rintro _ ⟨⟩, by rintro _ ⟨⟩⟩ fun accepted _ state hagrees => hmeaning hagrees
      rw [append_nil] at hcore
      exact ⟨waiting, done, flight, _, inv.append hcore (inv.chain.call hc.settledLoad _) rfl rfl rfl
        rfl rfl (prefix_refl _)⟩
    | some op =>
      rw [hop] at hset hmeaning
      obtain ⟨b₁, hrec, rfl⟩ := Option.map_eq_some_iff.1 hset
      obtain ⟨hvalid, rfl⟩ := record_eq_some hrec
      have hcore : Core env { b with
          pendingOperationOwners := b.pendingOperationOwners + 1
          pendingOperationEstimatedBytes :=
            b.pendingOperationEstimatedBytes + env.estimatePendingOperationBytes op
          mutationVersion := b.mutationVersion + 1
          pendingOperations := b.pendingOperations ++
            [⟨b.mutationVersion + 1, op, env.estimatePendingOperationBytes op⟩]
          dirty := true
          visible := applyBaseOperation b.visible op } origin (calls ++ [.setter call])
          (waiting ++ []) done flight
          (rest ++ [.recorded call
            ⟨b.mutationVersion + 1, op, env.estimatePendingOperationBytes op⟩]) := inv.core.append
        (t := .recorded call ⟨b.mutationVersion + 1, op, env.estimatePendingOperationBytes op⟩)
        ⟨rfl, rfl, rfl, rfl, rfl, (append_nil _).symm, Nat.le_succ _, le_rfl, by
          rintro v ⟨⟩
          exact ⟨Nat.lt_succ_self _, le_rfl⟩, by rintro _ ⟨⟩, by
          rintro row ⟨⟩
          exact hvalid⟩ fun accepted _ state hagrees => hmeaning hagrees
      rw [append_nil] at hcore
      refine ⟨waiting, done, flight, _, inv.append hcore ?_ rfl rfl rfl rfl rfl (prefix_refl _)⟩
      refine { inv.chain.call hc.settledLoad (.setter call) with bounded := ?_ }
      exact fun t ht => ⟨(inv.chain.bounded t ht).1,
        fun q hq => ((inv.chain.bounded t ht).2 q hq).trans (Nat.le_succ _)⟩

theorem Good.commitRootPublication (h : Good env w)
    (hc : Careful w.base (.commitRootPublication p)) :
    Good env (w.step env (.commitRootPublication p)) := by
  obtain ⟨waiting, done, flight, rest, inv⟩ := h
  obtain ⟨b, origin, calls⟩ := w
  rw [World.step]
  cases hcommit : b.commitRootPublication env p with
  | none => exact ⟨waiting, done, flight, rest, inv⟩
  | some b' =>
    dsimp only
    rw [Base.commitRootPublication] at hcommit
    split_ifs at hcommit with hw hqueue hvalid hbytes
    obtain rfl := Option.some.inj hcommit
    have hentries : p.entries.all fun row => validateOperation row.operation := by
      have hvalid' : validPublication env p = true := by simpa using hvalid
      rw [validPublication] at hvalid'
      simp only [Bool.and_eq_true] at hvalid'
      exact hvalid'.1.1.2
    have hcore := @Core.append _ _ _ _ _ _ _ _ inv.core ({ b with
        queuedPublications := b.queuedPublications + 1
        queuedPublicationBytes := b.queuedPublicationBytes + env.encodedBytes p
        mutationVersion := b.mutationVersion + 1
        publicationBarriers := b.publicationBarriers ++ [b.mutationVersion + 1] }.enqueue
          (.publication p (b.mutationVersion + 1) (env.encodedBytes p))) (.publication b.promises p (b.mutationVersion + 1))
      ⟨rfl, rfl, rfl, (append_nil _).symm, by
        have hnew : b.promises ∉ b.published := fun hm =>
          lt_irrefl _ (inv.core.settled_lt _ (mem_append_left _ hm))
        exact (if_neg hnew).symm, rfl, Nat.le_succ _, Nat.le_succ _, by
        rintro v ⟨⟩
        exact ⟨Nat.lt_succ_self _, le_rfl⟩, by
        rintro n ⟨⟩
        exact ⟨le_rfl, Nat.lt_succ_self _⟩, by rintro _ ⟨⟩⟩ fun accepted _ state _ => rfl
    refine ⟨_, done, flight, _, inv.append hcore ?_ rfl rfl rfl rfl rfl (prefix_append _ _)⟩
    refine (@ChainOk.push _ _ _ _ _ _ _ _ _ inv.chain inv.core inv.chain_ne_nil (.publication p (b.mutationVersion + 1) (env.encodedBytes p))) rfl rfl (Nat.le_succ _) rfl ?_ (by rintro ⟨⟩)
    rintro q ⟨⟩
    exact ⟨Nat.lt_succ_self _, le_rfl, hentries, hc⟩

theorem Good.enqueue (h : Good env w) (hwork : ∀ n, (⟨n, work⟩ : Task).waiting = none) :
    Good env (w.enqueue work) := by
  obtain ⟨waiting, done, flight, rest, inv⟩ := h
  obtain ⟨b, origin, calls⟩ := w
  have hcore : Core env (b.enqueue work) origin (calls ++ [.queued b.promises]) (waiting ++ [])
      done flight (rest ++ [.queued b.promises]) := inv.core.append (t := .queued b.promises)
    ⟨rfl, rfl, rfl, (append_nil _).symm, rfl, (append_nil _).symm, le_rfl, Nat.le_succ _,
      nofun, by
      rintro n ⟨⟩
      exact ⟨le_rfl, Nat.lt_succ_self _⟩, nofun⟩ fun accepted _ state _ => rfl
  rw [append_nil] at hcore
  have hchain := @ChainOk.push _ _ _ _ _ _ _ _ _ inv.chain inv.core inv.chain_ne_nil _ (.queued b.promises) (b.enqueue work) rfl rfl le_rfl rfl
    (by
      intro q hq
      rw [hwork] at hq
      cases hq)
    fun _ => ⟨_, rfl⟩
  rw [hwork, Option.toList_none, append_nil] at hchain
  exact ⟨waiting, done, flight, _, inv.append hcore hchain rfl rfl rfl rfl rfl (prefix_append _ _)⟩

theorem Good.init (h : disk.load = some state) (walSegments : Nat) :
    Good env (World.loaded disk state walSegments) := by
  refine ⟨[], [], [], [], ?_⟩
  constructor
  · exact Core.waits (fun _ h => by cases h) List.Pairwise.nil (fun _ h => by cases h)
      rfl rfl rfl rfl nofun nofun
  · exact ⟨rfl, List.Pairwise.nil, nofun, nofun, nofun, nofun⟩
  · intro stage hstage
    cases hstage
  · exact fun _ => rfl
  · exact DiskOk.of_writable (b := Base.loaded disk state walSegments) rfl h

theorem Good.step (h : Good env w) (hc : Careful w.base event) : Good env (w.step env event) := by
  cases event with
  | setter call => exact h.setter hc
  | commitRootPublication p => exact h.commitRootPublication hc
  | checkpoint => exact h.enqueue fun _ => rfl
  | save => exact h.enqueue fun _ => rfl
  | load => exact h.enqueue fun _ => rfl
  | start => exact h.start
  | resume outcome => exact h.resume outcome

theorem CarefulRun.good (h : CarefulRun env w) : Good env w := by
  induction h with
  | loaded disk state walSegments hload => exact Good.init hload walSegments
  | step w event _ hc ih => exact ih.step hc

/-- In a careful run the visible state is that of the calls in their order, with the accepted
publications at their places. The disk holds the result of a part of them from the first on, with
every resolved checkpoint inside it, every accepted publication accepted, and no publication twice;
only a failed write can leave a publication there that was not accepted. -/
theorem calls_take_effect_in_order (env : Env) (w : World) (h : CarefulRun env w) :
    w.base.visible = replay env (· ∈ w.base.published) w.origin w.calls ∧
    ∃ (landed : List Nat) (k : Nat),
      w.base.published ⊆ landed ∧ (w.base.writable = true → landed = w.base.published) ∧
      w.base.disk.load = some (replay env (· ∈ landed) w.origin (w.calls.take k)) ∧
      (∀ i n, w.calls[i]? = some (.queued n) → n ∈ w.base.resolved → i < k) ∧
      (sequencesFrom w.origin (· ∈ landed) (w.calls.take k)).Pairwise (· < ·) := by
  obtain ⟨waiting, done, flight, rest, inv⟩ := h.good
  obtain ⟨b, origin, calls⟩ := w
  have hcore := inv.core
  refine ⟨hcore.visible_replay, ?_⟩
  -- A resolved checkpoint is a call of `done`.
  have hresolved : ∀ i n, calls[i]? = some (.queued n) → n ∈ b.resolved → i < done.length := by
    intro i n hi hn
    by_contra hle
    have hcalls : calls = (done ++ (flight ++ rest)).map Traced.item := hcore.calls_eq
    rw [hcalls, map_append, getElem?_append_right (by simpa using hle)] at hi
    obtain ⟨t, ht, hitem⟩ := mem_map.1 (mem_of_getElem? hi)
    cases t with
    | queued promise =>
      obtain rfl : promise = n := by injection hitem
      exact hcore.unresolved promise ht hn
    | silent call => cases hitem
    | recorded call row => cases hitem
    | publication promise p v => cases hitem
  cases hw : b.writable with
  | true =>
    obtain ⟨htake, -⟩ := hcore.take_calls (prefix_append done _)
    refine ⟨b.published, done.length, List.Subset.refl _, fun _ => rfl, ?_, hresolved, ?_⟩
    · exact (inv.disk.writable hw).trans (congrArg some hcore.durable_replay)
    · rw [htake]
      exact hcore.rising
  | false =>
    obtain ⟨landed, k, hpub, hdone, -, hload, hrising⟩ := inv.disk.landed hw
    exact ⟨landed, k, hpub, nofun, hload, fun i n hi hn => (hresolved i n hi hn).trans_le hdone,
      hrising⟩

end

def World.run (env : Env) (w : World) (events : List Event) : World :=
  events.foldl (World.step env) w

def sampleHash (c : Char) : String := String.ofList (List.replicate 64 c)

def sampleEnv : Env where
  estimatePendingOperationBytes := fun _ => 256
  encodedBytes := fun _ => 512
  rootPublicationDigest := fun _ => sampleHash 'd'
  onePercent := fun total => (total + 99) / 100
  maxPendingOperations := 1024
  maxPendingOperationEstimatedBytes := 8 * 1024 * 1024

def sampleState : BaseState where
  data := ⟨0, none, none, true, none, none⟩
  entries := fun path => if path = "a" then some ⟨sampleHash 'a', 1, 1, none⟩ else none

def samplePublication : RootBasePublication where
  identity := ⟨sampleHash 'e', 1, String.ofList (List.replicate 32 'f'), sampleHash 'e'⟩
  candidateRoot := sampleHash 'c'
  entries := [.upsert "a" (sampleHash 'b') 2 2 none]
  committedAt := 9

def sampleWorld : World := World.loaded ⟨sampleState, []⟩ sampleState 0

/-- The fence is lifted and written. -/
theorem calls_take_effect_fence :
    (sampleWorld.run sampleEnv [.setter (.setVerifiedBaseRequired false), .checkpoint, .start,
      .resume (.done 1)]).base.resolved = [0] ∧
    ∃ (landed : List Nat) (k : Nat),
      (sampleWorld.run sampleEnv [.setter (.setVerifiedBaseRequired false), .checkpoint, .start,
        .resume (.done 1)]).base.disk.load =
        some (replay sampleEnv (· ∈ landed) sampleState
          ([.setter (.setVerifiedBaseRequired false), .queued 0].take k)) ∧ 1 < k := by
  have hrun : CarefulRun sampleEnv (sampleWorld.run sampleEnv
      [.setter (.setVerifiedBaseRequired false), .checkpoint, .start, .resume (.done 1)]) := by
    simp only [World.run, foldl_cons, foldl_nil]
    apply CarefulRun.step _ (.resume (.done 1)) _ trivial
    apply CarefulRun.step _ .start _ trivial
    apply CarefulRun.step _ .checkpoint _ trivial
    apply CarefulRun.step _ (.setter (.setVerifiedBaseRequired false))
    · exact CarefulRun.loaded _ _ _ rfl
    · exact ⟨nofun, fun _ => rfl⟩
  obtain ⟨-, landed, k, -, -, hload, hresolved, -⟩ := calls_take_effect_in_order sampleEnv _ hrun
  exact ⟨by decide +kernel, landed, k, hload, hresolved 1 0 rfl (by decide +kernel)⟩

/-- Three runs whose queue is settled in the end. The fence is set to its visible value while a
publication waits, and the publication lifts it. Metadata is refreshed while a publication of the
same path waits, and the hash of the publication is gone. A value is set while a load waits, and it
is gone. -/
theorem calls_lose_their_place :
    (let w := sampleWorld.run sampleEnv [.commitRootPublication samplePublication,
        .setter (.setVerifiedBaseRequired true), .start, .resume (.done 1), .resume (.done 2)]
     w.base.writeChain = [] ∧ w.base.published = [0] ∧ w.calls.length = 2 ∧
      w.base.visible.data.verifiedBaseRequired = false ∧
      (replay sampleEnv (· ∈ [0]) w.origin w.calls).data.verifiedBaseRequired = true) ∧
    (let w := sampleWorld.run sampleEnv [.commitRootPublication samplePublication,
        .setter (.refreshLocalMetadata "a" 7 1), .start, .resume (.done 1), .resume (.done 2),
        .resume (.done 3)]
     w.base.writeChain = [] ∧ w.base.published = [0] ∧ w.calls.length = 2 ∧
      (w.base.visible.entries "a").map (·.hash) = some (sampleHash 'a') ∧
      ((replay sampleEnv (· ∈ [0]) w.origin w.calls).entries "a").map (·.hash) =
        some (sampleHash 'b')) ∧
    (let w := sampleWorld.run sampleEnv [.load, .setter (.setLastSyncTimestamp 5), .start,
        .resume (.done 0)]
     w.base.writeChain = [] ∧ w.calls.length = 1 ∧ w.base.visible.data.lastSyncTimestamp = 0 ∧
      (replay sampleEnv (· ∈ []) w.origin w.calls).data.lastSyncTimestamp = 5) := by
  decide +kernel

end Obsetync.SyncBase
