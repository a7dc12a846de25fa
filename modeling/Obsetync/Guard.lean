import Obsetync.Bridge

namespace Obsetync.Guard
open Keyed Fallible
open List hiding lookup lookup_cons

inductive GuardMode
  | enforce
  | warn
  | off
  deriving DecidableEq

structure GuardConfig where
  mode : GuardMode
  mtimeRegressionMax : Nat
  mtimeSkewMs : UInt64
  blastPct : UInt64
  blastMin : UInt64

/-- `from_env` with no variable set. -/
def GuardConfig.unset : GuardConfig := ⟨.warn, 25, 43200000, 25, 200⟩

structure GuardScan where
  deletions : Nat := 0
  contentChanges : Nat := 0
  mtimeRegressions : Nat := 0
  additions : Nat := 0
  currentTotal : UInt64 := 0
  deriving DecidableEq

def GuardScan.triggered (scan : GuardScan) (cfg : GuardConfig) : Option String :=
  if cfg.mtimeRegressionMax < scan.mtimeRegressions then some "mtime_regression"
  else
    let blast := UInt64.ofNat (scan.deletions + scan.contentChanges)
    let ceiling := max cfg.blastMin (scan.currentTotal * cfg.blastPct / 100)
    if ceiling < blast then some "blast_radius" else none

def saturatingAdd (a b : UInt64) : Nat := min (a.toNat + b.toNat) (2 ^ 64 - 1)

/-- What `compare_entries` does where the two entries have one path. -/
def compareSame (skewMs : UInt64) (cur cand : FileEntry) (out : GuardScan) : GuardScan :=
  if cur.hash ≠ cand.hash then
    let out := { out with contentChanges := out.contentChanges + 1 }
    if saturatingAdd cand.mtimeMs skewMs < cur.mtimeMs.toNat then
      { out with mtimeRegressions := out.mtimeRegressions + 1 }
    else out
  else out

/-- The steps of `compare_entries` that pass over `cand` while the first list stays at `cur`. -/
def compareRow (skewMs : UInt64) (cur : FileEntry) (rest : List FileEntry)
    (next : List FileEntry → GuardScan → GuardScan) : List FileEntry → GuardScan → GuardScan
  | [], out => { out with deletions := out.deletions + (cur :: rest).length }
  | cand :: more, out =>
    if cur.path = cand.path then next more (compareSame skewMs cur cand out)
    else if cur.path < cand.path then
      next (cand :: more) { out with deletions := out.deletions + 1 }
    else compareRow skewMs cur rest next more { out with additions := out.additions + 1 }

def compareEntries (skewMs : UInt64) : List FileEntry → List FileEntry → GuardScan → GuardScan
  | [], cand, out => { out with additions := out.additions + cand.length }
  | cur :: rest, cand, out => compareRow skewMs cur rest (compareEntries skewMs rest) cand out

section

variable (codec : TreeV1.NodeCodec) (store : ChunkStore)

def childOf (children : List (String × FileHash)) (pre : String) : Option FileHash :=
  (latest Prod.fst children pre).map Prod.snd

def scanCurrent (candidate : TreeV1.RootNode) (skewMs : UInt64) (out : GuardScan)
    (child : String × FileHash) : Except ChunkError GuardScan :=
  match childOf candidate.children child.1 with
  | some candHash =>
    if candHash = child.2 then .ok out
    else do
      let curEntries ← TreeV1.loadAllEntries codec store child.2
      let candEntries ← TreeV1.loadAllEntries codec store candHash
      return compareEntries skewMs curEntries candEntries out
  | none => do
    let curEntries ← TreeV1.loadAllEntries codec store child.2
    return { out with deletions := out.deletions + curEntries.length }

def scanCandidate (current : TreeV1.RootNode) (out : GuardScan) (child : String × FileHash) :
    Except ChunkError GuardScan :=
  if (childOf current.children child.1).isSome then .ok out
  else do
    let candEntries ← TreeV1.loadAllEntries codec store child.2
    return { out with additions := out.additions + candEntries.length }

def scanInner (current candidate : TreeV1.RootNode) (skewMs : UInt64) :
    Except ChunkError GuardScan := do
  let out ← current.children.foldlM (scanCurrent codec store candidate skewMs)
    { currentTotal := current.totalFiles }
  candidate.children.foldlM (scanCandidate codec store current) out

variable (hashBytes : Bytes → FileHash)

def scanVersioned (cfg : GuardConfig) : VersionedRoot → VersionedRoot → Except ChunkError GuardScan
  | .v1 current, .v1 candidate => scanInner codec store current candidate cfg.mtimeSkewMs
  | current, candidate => do
    let currentEntries ← loadAllEntries codec hashBytes store current
    let candidateEntries ← loadAllEntries codec hashBytes store candidate
    return compareEntries cfg.mtimeSkewMs currentEntries candidateEntries
      { currentTotal := current.totalFiles }

end

inductive Counter
  | deletions
  | contentChanges
  | mtimeRegressions
  | additions

def GuardScan.count (scan : GuardScan) : Counter → Nat
  | .deletions => scan.deletions
  | .contentChanges => scan.contentChanges
  | .mtimeRegressions => scan.mtimeRegressions
  | .additions => scan.additions

/-- Whether a file of the current state counts, by what the candidate has at its path. -/
def hit (skewMs : UInt64) : Counter → FileEntry → Option FileEntry → Bool
  | .deletions, _, other => other.isNone
  | .contentChanges, cur, other => other.any fun cand => cur.hash ≠ cand.hash
  | .mtimeRegressions, cur, other => other.any fun cand =>
    cur.hash ≠ cand.hash && saturatingAdd cand.mtimeMs skewMs < cur.mtimeMs.toNat
  | .additions, _, _ => false

/-- Whether a file of the candidate counts, by what the current state has at its path. -/
def fresh : Counter → FileEntry → Option FileEntry → Bool
  | .additions, _, other => other.isNone
  | _, _, _ => false

def tally (skewMs : UInt64) (cur cand : List FileEntry) (counter : Counter) : Nat :=
  cur.countP (fun e => hit skewMs counter e (lookup FileEntry.path cand e.path)) +
    cand.countP fun e => fresh counter e (lookup FileEntry.path cur e.path)

variable {skewMs : UInt64} {cur cand : List FileEntry} {out out' : GuardScan} {counter : Counter}

theorem GuardScan.ext_count (htotal : out.currentTotal = out'.currentTotal)
    (h : ∀ counter, out.count counter = out'.count counter) : out = out' := by
  have h1 := h .deletions
  have h2 := h .contentChanges
  have h3 := h .mtimeRegressions
  have h4 := h .additions
  cases out
  cases out'
  simp only [GuardScan.count] at h1 h2 h3 h4 htotal
  subst h1 h2 h3 h4 htotal
  rfl

def Adds (out out' : GuardScan) (counts : Counter → Nat) : Prop :=
  out'.currentTotal = out.currentTotal ∧
    ∀ counter, out'.count counter = out.count counter + counts counter

theorem Adds.trans (h : Adds out out' counts) (h' : Adds out' last counts') :
    Adds out last fun counter => counts counter + counts' counter :=
  ⟨h'.1.trans h.1, fun counter => by rw [h'.2, h.2, Nat.add_assoc]⟩

theorem Adds.congr (h : Adds out out' counts) (heq : ∀ counter, counts counter = counts' counter) :
    Adds out out' counts' :=
  ⟨h.1, fun counter => by rw [h.2, heq]⟩

theorem hit_self : hit skewMs counter e (some e) = false := by
  cases counter <;> simp [hit]

theorem fresh_some : fresh counter a (some b) = false := by
  cases counter <;> rfl

theorem adds_compareSame : Adds out (compareSame skewMs a b out) fun counter =>
      if hit skewMs counter a (some b) then 1 else 0 := by
  rw [compareSame]
  by_cases hhash : a.hash = b.hash
  · rw [if_neg (not_not.2 hhash)]
    exact ⟨rfl, fun counter => by cases counter <;> simp [hit, hhash]⟩
  · rw [if_pos hhash]
    by_cases hlate : saturatingAdd b.mtimeMs skewMs < a.mtimeMs.toNat
    · simp only [if_pos hlate]
      exact ⟨rfl, fun counter => by cases counter <;> simp [hit, hhash, hlate, GuardScan.count]⟩
    · simp only [if_neg hlate]
      exact ⟨rfl, fun counter => by cases counter <;> simp [hit, hhash, hlate, GuardScan.count]⟩

theorem countP_lookup_cons {p : FileEntry → Option FileEntry → Bool} {l m : List FileEntry}
    {a : FileEntry} (h : ∀ e ∈ l, a.path ≠ e.path) :
    l.countP (fun e => p e (lookup FileEntry.path (a :: m) e.path)) =
      l.countP fun e => p e (lookup FileEntry.path m e.path) := by
  apply countP_congr
  intro e he
  rw [lookup_cons, if_neg (h e he)]

theorem tally_delete {a : FileEntry} {as : List FileEntry} (h : ∀ e ∈ cand, a.path ≠ e.path) :
    tally skewMs (a :: as) cand counter =
      (if hit skewMs counter a none then 1 else 0) + tally skewMs as cand counter := by
  have hnone : lookup FileEntry.path cand a.path = none :=
    lookup_eq_none.2 fun e he heq => h e he heq.symm
  rw [tally, tally, countP_cons, hnone, countP_lookup_cons h]
  omega

theorem tally_add {b : FileEntry} {bs : List FileEntry} (h : ∀ e ∈ cur, b.path ≠ e.path) :
    tally skewMs cur (b :: bs) counter =
      (if fresh counter b none then 1 else 0) + tally skewMs cur bs counter := by
  have hnone : lookup FileEntry.path cur b.path = none :=
    lookup_eq_none.2 fun e he heq => h e he heq.symm
  rw [tally, tally, countP_cons, hnone, countP_lookup_cons h]
  omega

theorem tally_both {a b : FileEntry} {as bs : List FileEntry} (hpath : a.path = b.path)
    (has : ∀ e ∈ as, b.path ≠ e.path) (hbs : ∀ e ∈ bs, a.path ≠ e.path) :
    tally skewMs (a :: as) (b :: bs) counter =
      (if hit skewMs counter a (some b) then 1 else 0) + tally skewMs as bs counter := by
  have ha : lookup FileEntry.path (b :: bs) a.path = some b := by
    rw [lookup_cons, if_pos hpath.symm]
  have hb : lookup FileEntry.path (a :: as) b.path = some a := by
    rw [lookup_cons, if_pos hpath]
  rw [tally, tally, countP_cons, countP_cons, ha, hb, fresh_some,
    countP_lookup_cons has, countP_lookup_cons hbs, if_neg Bool.false_ne_true]
  omega

theorem adds_deletion (a : FileEntry) :
    Adds out { out with deletions := out.deletions + 1 } fun counter =>
      if hit skewMs counter a none then 1 else 0 := by
  refine ⟨rfl, fun counter => ?_⟩
  cases counter <;> rfl

theorem adds_addition (b : FileEntry) :
    Adds out { out with additions := out.additions + 1 } fun counter =>
      if fresh counter b none then 1 else 0 := by
  refine ⟨rfl, fun counter => ?_⟩
  cases counter <;> rfl

theorem adds_deletions :
    Adds out { out with deletions := out.deletions + cur.length } (tally skewMs cur []) := by
  refine ⟨rfl, fun counter => ?_⟩
  cases counter <;> simp [tally, hit, GuardScan.count]

theorem adds_additions :
    Adds out { out with additions := out.additions + cand.length } (tally skewMs [] cand) := by
  refine ⟨rfl, fun counter => ?_⟩
  cases counter <;> simp [tally, fresh, GuardScan.count]

theorem compareEntries_spec (hcur : Sorted FileEntry.path cur) (hcand : Sorted FileEntry.path cand) :
    Adds out (compareEntries skewMs cur cand out) (tally skewMs cur cand) := by
  induction cur, cand using zip_induction FileEntry.path FileEntry.path generalizing out with
  | nil cand => exact adds_additions
  | cons_nil a as => exact adds_deletions
  | lt a as b bs h ih =>
    obtain ⟨-, has⟩ := pairwise_cons.1 hcur
    obtain ⟨hb, -⟩ := pairwise_cons.1 hcand
    have hne : ∀ e ∈ b :: bs, a.path ≠ e.path := by
      intro e he
      rcases mem_cons.1 he with rfl | he
      · exact h.ne
      · exact (h.trans (hb e he)).ne
    rw [compareEntries, compareRow, if_neg h.ne, if_pos h]
    exact ((adds_deletion a).trans (ih has hcand)).congr fun counter => (tally_delete hne).symm
  | eq a as b bs h ih =>
    obtain ⟨ha, has⟩ := pairwise_cons.1 hcur
    obtain ⟨hb, hbs⟩ := pairwise_cons.1 hcand
    rw [compareEntries, compareRow, if_pos h]
    exact (adds_compareSame.trans (ih has hbs)).congr fun counter =>
      (tally_both h (fun e he => h ▸ (ha e he).ne) fun e he => h ▸ (hb e he).ne).symm
  | gt a as b bs h ih =>
    obtain ⟨ha, -⟩ := pairwise_cons.1 hcur
    obtain ⟨-, hbs⟩ := pairwise_cons.1 hcand
    have hne : ∀ e ∈ a :: as, b.path ≠ e.path := by
      intro e he
      rcases mem_cons.1 he with rfl | he
      · exact h.ne
      · exact (h.trans (ha e he)).ne
    rw [compareEntries, compareRow, if_neg h.ne', if_neg h.not_gt]
    exact ((adds_addition b).trans (ih hcur hbs)).congr fun counter => (tally_add hne).symm

theorem tally_perm (hcur : cur.Perm cur') (hcand : cand.Perm cand')
    (hndcur : (cur.map FileEntry.path).Nodup) (hndcand : (cand.map FileEntry.path).Nodup) :
    tally skewMs cur cand counter = tally skewMs cur' cand' counter := by
  simp only [tally, lookup_perm hcand hndcand, lookup_perm hcur hndcur]
  rw [hcur.countP_eq, hcand.countP_eq]

theorem tally_self (h : Sorted FileEntry.path cur) : tally skewMs cur cur counter = 0 := by
  have hself : ∀ e ∈ cur, lookup FileEntry.path cur e.path = some e :=
    fun e he => h.lookup_of_mem he
  rw [tally, Nat.add_eq_zero_iff, countP_eq_zero, countP_eq_zero]
  refine ⟨fun e he => ?_, fun e he => ?_⟩
  · rw [hself e he, hit_self]
    exact Bool.false_ne_true
  · rw [hself e he, fresh_some]
    exact Bool.false_ne_true

section Scan

variable {codec : TreeV1.NodeCodec} {hashBytes : Bytes → FileHash} {store : ChunkStore}
  {current candidate : TreeV1.RootNode} {child : String × FileHash}

def tallyAt (codec : TreeV1.NodeCodec) (store : ChunkStore) (skewMs : UInt64)
    (current candidate : TreeV1.RootNode) (pre : String) : Counter → Nat :=
  tally skewMs (TreeV1.under codec store current pre) (TreeV1.under codec store candidate pre)

theorem childOf_eq {root : TreeV1.RootNode} (h : Sorted Prod.fst root.children) :
    childOf root.children pre = (lookup Prod.fst root.children pre).map Prod.snd := by
  rw [childOf, h.latest_eq]

theorem scanCurrent_spec (hcur : TreeV1.Sound codec store current)
    (hcand : TreeV1.Sound codec store candidate) (hmem : child ∈ current.children) :
    ∃ out', scanCurrent codec store candidate skewMs out child = .ok out' ∧
      Adds out out' (tallyAt codec store skewMs current candidate child.1) := by
  have hunder := (@TreeV1.under_of_mem codec store) hcur.ordered hmem
  rw [scanCurrent, childOf_eq hcand.ordered, tallyAt, hunder]
  cases hlook : lookup Prod.fst candidate.children child.1 with
  | none =>
    have hnone : TreeV1.under codec store candidate child.1 = [] := by
      rw [TreeV1.under, hlook]
    rw [hnone]
    refine ⟨_, ?_, adds_deletions⟩
    change (TreeV1.loadAllEntries codec store child.2 >>= _) = _
    rw [hcur.loads child hmem]
    rfl
  | some other =>
    obtain ⟨hother, -⟩ := mem_of_lookup hlook
    have hsome : TreeV1.under codec store candidate child.1 =
        TreeV1.entriesAt codec store other.2 := by
      rw [TreeV1.under, hlook]
    rw [hsome]
    dsimp only [Option.map_some]
    by_cases hhash : other.2 = child.2
    · rw [if_pos hhash, hhash]
      exact ⟨out, rfl, rfl, fun counter => by rw [tally_self (hcur.sorted child hmem)]; rfl⟩
    · rw [if_neg hhash]
      refine ⟨_, ?_, compareEntries_spec (hcur.sorted child hmem) (hcand.sorted other hother)⟩
      rw [hcur.loads child hmem]
      change (TreeV1.loadAllEntries codec store other.2 >>= _) = _
      rw [hcand.loads other hother]
      rfl

theorem scanCandidate_spec (hcur : TreeV1.Sound codec store current)
    (hcand : TreeV1.Sound codec store candidate) (hmem : child ∈ candidate.children) :
    ∃ out', scanCandidate codec store current out child = .ok out' ∧ Adds out out' fun counter =>
        if child.1 ∈ current.prefixes then 0
        else tallyAt codec store skewMs current candidate child.1 counter := by
  have hunder := (@TreeV1.under_of_mem codec store) hcand.ordered hmem
  rw [scanCandidate, childOf_eq hcur.ordered]
  by_cases hpre : child.1 ∈ current.prefixes
  · obtain ⟨other, hother, heq⟩ := mem_map.1 hpre
    rw [← heq, hcur.ordered.lookup_of_mem hother]
    exact ⟨out, rfl, rfl, fun counter => by simp only [if_pos (heq ▸ hpre)]; rfl⟩
  · have hnone : lookup Prod.fst current.children child.1 = none := by
      rw [lookup_eq_none]
      intro other hother heq
      exact hpre (heq ▸ mem_map_of_mem hother)
    rw [hnone]
    refine ⟨{ out with additions := out.additions +
      (TreeV1.entriesAt codec store child.2).length }, ?_, ?_⟩
    · change (TreeV1.loadAllEntries codec store child.2 >>= _) = _
      rw [hcand.loads child hmem]
      rfl
    · simp only [if_neg hpre]
      rw [tallyAt, hunder, TreeV1.under_of_not_mem hpre]
      exact adds_additions

theorem foldlM_adds {α : Type} {f : GuardScan → α → Except ChunkError GuardScan}
    {counts : α → Counter → Nat} {l : List α}
    (h : ∀ a ∈ l, ∀ out, ∃ out', f out a = .ok out' ∧ Adds out out' (counts a)) (out : GuardScan) :
    ∃ out', l.foldlM f out = .ok out' ∧
      Adds out out' fun counter => (l.map fun a => counts a counter).sum := by
  induction l generalizing out with
  | nil => exact ⟨out, rfl, rfl, fun _ => rfl⟩
  | cons a l ih =>
    obtain ⟨next, hf, hnext⟩ := h a mem_cons_self out
    obtain ⟨last, hfold, hlast⟩ := ih (fun b hb => h b (mem_cons_of_mem _ hb)) next
    refine ⟨last, ?_, (hnext.trans hlast).congr fun _ => rfl⟩
    rw [foldlM_cons, hf]
    exact hfold

/-- The prefixes the scan looks at: the current root's, then those only the candidate has. -/
def scanned (current candidate : TreeV1.RootNode) : List String :=
  current.prefixes ++ candidate.prefixes.filter (· ∉ current.prefixes)

theorem sum_filter {p : α → Prop} [DecidablePred p] (f : α → Nat) (l : List α) :
    (l.map fun a => if p a then 0 else f a).sum = ((l.filter fun a => ¬ p a).map f).sum := by
  induction l with
  | nil => rfl
  | cons a l ih =>
    by_cases h : p a <;> simp [h, ih]

theorem scanInner_spec (hcur : TreeV1.Sound codec store current)
    (hcand : TreeV1.Sound codec store candidate) :
    ∃ out, scanInner codec store current candidate skewMs = .ok out ∧
      Adds { currentTotal := current.totalFiles } out fun counter =>
        ((scanned current candidate).map fun pre =>
          tallyAt codec store skewMs current candidate pre counter).sum := by
  obtain ⟨mid, hmid, hadds⟩ := foldlM_adds (l := current.children)
    (f := scanCurrent codec store candidate skewMs)
    (fun child hmem out => scanCurrent_spec hcur hcand hmem)
    { currentTotal := current.totalFiles }
  obtain ⟨out, hout, hadds'⟩ := foldlM_adds (l := candidate.children)
    (f := scanCandidate codec store current)
    (fun child hmem out => scanCandidate_spec hcur hcand hmem) mid
  refine ⟨out, ?_, (hadds.trans hadds').congr fun counter => ?_⟩
  · rw [scanInner, hmid]
    exact hout
  · have hfresh := sum_filter (p := (· ∈ current.prefixes))
      (fun pre => tallyAt codec store skewMs current candidate pre counter) candidate.prefixes
    have hcurrent : (current.children.map fun child =>
        tallyAt codec store skewMs current candidate child.1 counter) =
        current.prefixes.map fun pre =>
          tallyAt codec store skewMs current candidate pre counter := by
      rw [TreeV1.RootNode.prefixes, map_map]
      rfl
    have hcandidate : (candidate.children.map fun child =>
        if child.1 ∈ current.prefixes then 0
        else tallyAt codec store skewMs current candidate child.1 counter) =
        candidate.prefixes.map fun pre => if pre ∈ current.prefixes then 0
          else tallyAt codec store skewMs current candidate pre counter := by
      rw [show candidate.prefixes = candidate.children.map Prod.fst from rfl, map_map]
      rfl
    rw [scanned, map_append, sum_append, ← hfresh, hcurrent, hcandidate]

theorem nodup_scanned (hcur : TreeV1.Sound codec store current)
    (hcand : TreeV1.Sound codec store candidate) : (scanned current candidate).Nodup := by
  refine nodup_append.2 ⟨hcur.prefixes_sorted.nodup,
    (hcand.prefixes_sorted.nodup).filter _, fun p hp q hq => ?_⟩
  rintro rfl
  simp only [mem_filter, decide_eq_true_eq] at hq
  exact hq.2 hp

theorem mem_scanned : pre ∈ scanned current candidate ↔
    pre ∈ current.prefixes ∨ pre ∈ candidate.prefixes := by
  by_cases h : pre ∈ current.prefixes <;> simp [scanned, h]

theorem tally_flat (hcur : TreeV1.Sound codec store current)
    (hcand : TreeV1.Sound codec store candidate) :
    tally skewMs (TreeV1.flat codec store current) (TreeV1.flat codec store candidate) counter =
      ((scanned current candidate).map fun pre =>
        tallyAt codec store skewMs current candidate pre counter).sum := by
  have hnd := nodup_scanned hcur hcand
  have hperm := hcur.flat_perm hnd fun pre h => mem_scanned.2 (.inl h)
  have hperm' := hcand.flat_perm hnd fun pre h => mem_scanned.2 (.inr h)
  simp only [tally, tallyAt, hcur.lookup_flat, hcand.lookup_flat]
  rw [← hperm.countP_eq, ← hperm'.countP_eq, countP_flatMap, countP_flatMap, ← sum_map_add]
  refine congrArg List.sum (map_congr_left fun pre _ => ?_)
  refine congrArg₂ (· + ·) (countP_congr fun e he => ?_) (countP_congr fun e he => ?_)
  · rw [hcur.under_placed he]
  · rw [hcand.under_placed he]

end Scan

/-- On two v1 roots of a vault the scan that skips prefixes counts what comparing the flattened
states path by path counts, and it is the scan of the same states held as v2 roots. -/
theorem guard_scan_flat {codec : TreeV1.NodeCodec} {store : ChunkStore}
    {current candidate : TreeV1.RootNode} (hcur : TreeV1.Sound codec store current)
    (hcand : TreeV1.Sound codec store candidate) (hashBytes : Bytes → FileHash)
    (cfg : GuardConfig) :
    ∃ scan, scanVersioned codec store hashBytes cfg (.v1 current) (.v1 candidate) = .ok scan ∧
      (∀ counter, scan.count counter = tally cfg.mtimeSkewMs (TreeV1.flat codec store current)
        (TreeV1.flat codec store candidate) counter) ∧
      scan = compareEntries cfg.mtimeSkewMs
        (sortBy FileEntry.path (TreeV1.flat codec store current))
        (sortBy FileEntry.path (TreeV1.flat codec store candidate))
        { currentTotal := current.totalFiles } ∧
      ∀ store' current' candidate', loadAllEntries codec hashBytes store' (.v2 current') =
          .ok (sortBy FileEntry.path (TreeV1.flat codec store current)) →
        loadAllEntries codec hashBytes store' (.v2 candidate') =
          .ok (sortBy FileEntry.path (TreeV1.flat codec store candidate)) →
        (scanVersioned codec store' hashBytes cfg (.v2 current') (.v2 candidate')).map
            (·.triggered cfg) = .ok (scan.triggered cfg) := by
  obtain ⟨scan, hscan, htotal, hadds⟩ := scanInner_spec hcur hcand
  have hcount : ∀ counter, scan.count counter = tally cfg.mtimeSkewMs
      (TreeV1.flat codec store current) (TreeV1.flat codec store candidate) counter := by
    intro counter
    rw [tally_flat hcur hcand, hadds]
    cases counter <;> exact Nat.zero_add _
  have hflat : scan = compareEntries cfg.mtimeSkewMs
      (sortBy FileEntry.path (TreeV1.flat codec store current))
      (sortBy FileEntry.path (TreeV1.flat codec store candidate))
      { currentTotal := current.totalFiles } := by
    obtain ⟨htotal', hadds'⟩ := compareEntries_spec hcur.sorted_flat hcand.sorted_flat
    refine GuardScan.ext_count (htotal.trans htotal'.symm) fun counter => ?_
    rw [hcount, hadds', tally_perm (@sortBy_perm _ _ _ FileEntry.path).symm
      (@sortBy_perm _ _ _ FileEntry.path).symm hcur.flat_nodup hcand.flat_nodup]
    cases counter <;> exact (Nat.zero_add _).symm
  refine ⟨scan, hscan, hcount, hflat, fun store' current' candidate' hload hload' => ?_⟩
  have hsame : (VersionedRoot.v2 current').totalFiles = current.totalFiles := by
    obtain ⟨-, -, hdeclared, -⟩ := loadAllEntries_eq_ok.1 hload
    rw [← hdeclared, sortBy_perm.length_eq, hcur.total]
  have hscan' : scanVersioned codec store' hashBytes cfg (.v2 current') (.v2 candidate') =
      .ok scan := by
    rw [scanVersioned, hload]
    · change (loadAllEntries codec hashBytes store' (.v2 candidate') >>= _) = _
      rw [hload', hflat, ← hsame]
      rfl
    · intro current candidate h
      cases h
  rw [hscan']
  rfl

def note : FileEntry := ⟨"note.md", TreeV2.lengthHash [], 1, 2⟩

def noteStore : ChunkStore := ⟨fun _ => .ok (TreeV1.leafChunk TreeV1.unaryCodec [note])⟩

def noteRoot : TreeV1.RootNode :=
  (TreeV1.buildTree TreeV1.unaryCodec TreeV2.lengthHash 0 [note] "vault" "device").1

/-- The last file of a vault deleted. -/
theorem guard_scan_flat_note : TreeV1.Sound TreeV1.unaryCodec noteStore noteRoot ∧
    TreeV1.Sound TreeV1.unaryCodec noteStore (Bridge.emptyVault "vault") ∧
    ∃ scan, scanVersioned TreeV1.unaryCodec noteStore TreeV2.lengthHash .unset (.v1 noteRoot)
      (.v1 (Bridge.emptyVault "vault")) = .ok scan ∧ scan.deletions = 1 := by
  obtain ⟨hnote, hperm⟩ := (@TreeV1.sound_buildTree _ _ noteStore [note]) TreeV1.unaryCodec_lawful
    (pairwise_singleton _ _) (by decide) (by
      intro chunk hchunk
      have hput : (TreeV1.buildTree TreeV1.unaryCodec TreeV2.lengthHash 0 [note] "vault"
          "device").2 = [TreeV1.leafChunk TreeV1.unaryCodec [note]] := rfl
      rw [hput, mem_singleton] at hchunk
      rw [hchunk]
      rfl)
  have hempty : TreeV1.Sound TreeV1.unaryCodec noteStore (Bridge.emptyVault "vault") :=
    ⟨List.Pairwise.nil, nofun, nofun, nofun, rfl⟩
  obtain ⟨scan, hscan, hcount, -⟩ := guard_scan_flat hnote hempty TreeV2.lengthHash .unset
  refine ⟨hnote, hempty, scan, hscan, ?_⟩
  have hdeletions := hcount .deletions
  rw [perm_singleton.1 hperm] at hdeletions
  exact hdeletions

end Obsetync.Guard
