import Obsetync.Conflict
import Obsetync.Merge.Lists

namespace Obsetync
open Keyed
open List hiding lookup lookup_cons

def fileChunkThreshold : Nat := 1048576

def textExtensions : List String :=
  ["md", "txt", "css", "json", "js", "ts", "html", "xml", "yaml", "yml", "toml", "csv", "canvas",
    "excalidraw", "svg", "tex", "bib", "org", "rst"]

/-- Whether the part behind the last dot, in lower case, is a text extension. A letter outside ASCII
never becomes one of the letters of `textExtensions`, so that lowering ASCII letters is enough. -/
def isTextFile (path : String) : Bool :=
  let ext := (path.toList.reverse.takeWhile (· ≠ '.')).reverse
  textExtensions.contains (String.ofList (ext.map Char.toLower))

abbrev Content := FileHash → Option Bytes

def Content.put (content : Content) (hash : FileHash) (data : Bytes) : Content :=
  Function.update content hash (some data)

def patchEntry (path : String) (f : FileEntry → FileEntry) : List FileEntry → List FileEntry
  | [] => []
  | e :: es => if e.path = path then f e :: es else e :: patchEntry path f es

/-- `dedup_by` on the paths. -/
def dedupByPath (entries : List FileEntry) : List FileEntry :=
  entries.foldl (fun kept e =>
    if kept.getLast?.map FileEntry.path = some e.path then kept else kept ++ [e]) []

structure Resolution where
  content : Content
  merged : List FileEntry
  conflicts : List FileConflict
  textMerged : Nat

section

variable (fromLines : String → String → TextDiff) (hashBytes : Bytes → FileHash)

/-- A read of a blob: a missing one and one that fails its address are errors alike. -/
def Content.get? (content : Content) (hash : FileHash) : Option Bytes :=
  (content hash).filter (hashBytes · = hash)

/-- The merged text of `try_text_merge`, if the file is eligible and its edits do not overlap. -/
def textMerge (content : Content) (todo : TextMergeTodo) : Option Bytes :=
  if !isTextFile todo.path || fileChunkThreshold ≤ todo.a.sizeBytes.toNat ||
      fileChunkThreshold ≤ todo.b.sizeBytes.toNat then none
  else
    match content.get? hashBytes todo.baseHash, content.get? hashBytes todo.a.hash,
      content.get? hashBytes todo.b.hash with
    | some base, some a, some b =>
      if (fromUtf8 base).isNone || (fromUtf8 a).isNone || (fromUtf8 b).isNone then none
      else
        match threeWayTextMerge fromLines base a b with
        | .merged text => if fileChunkThreshold ≤ text.length then none else some text
        | .overlap => none
    | _, _, _ => none

def mergedEntry (todo : TextMergeTodo) (text : Bytes) (entry : FileEntry) : FileEntry :=
  { entry with
    hash := hashBytes text
    sizeBytes := UInt64.ofNat text.length
    mtimeMs := max todo.a.mtimeMs todo.b.mtimeMs }

/-- A merged text is put unless it is the first side's. -/
def Content.putMerged (content : Content) (todo : TextMergeTodo) (text : Bytes) : Content :=
  if hashBytes text ≠ todo.a.hash then content.put (hashBytes text) text else content

/-- One turn of the text merge pass: `try_text_merge`, or a conflict. -/
def textStep (r : Resolution) (todo : TextMergeTodo) : Resolution :=
  match textMerge fromLines hashBytes r.content todo with
  | some text =>
    ⟨r.content.putMerged hashBytes todo text,
      patchEntry todo.path (mergedEntry hashBytes todo text) r.merged, r.conflicts,
      r.textMerged + 1⟩
  | none => { r with conflicts := r.conflicts ++ [todo.conflict] }

/-- The text merge pass, and the sort before the new tree is built. -/
def resolve (content : Content) (state : MergeState) : Resolution :=
  let r := state.textTodo.foldl (textStep fromLines hashBytes)
    ⟨content, state.merged, state.conflicts, 0⟩
  { r with merged := dedupByPath (sortBy FileEntry.path r.merged) }

end

variable {fromLines : String → String → TextDiff} {hashBytes : Bytes → FileHash}

theorem patchEntry_paths (hf : ∀ e, (f e).path = e.path) (p : String) :
    (patchEntry p f l).map FileEntry.path = l.map FileEntry.path := by
  induction l with
  | nil => rfl
  | cons e l ih =>
    rw [patchEntry]
    split_ifs
    · rw [map_cons, map_cons, hf]
    · rw [map_cons, map_cons, ih]

theorem lookup_patchEntry (hf : ∀ e, (f e).path = e.path) (p q : String) (l : List FileEntry) :
    lookup FileEntry.path (patchEntry p f l) q =
      if q = p then (lookup FileEntry.path l q).map f else lookup FileEntry.path l q := by
  induction l with
  | nil => simp [patchEntry]
  | cons e l ih =>
    rw [patchEntry]
    by_cases hp : e.path = p
    · rw [if_pos hp, lookup_cons, hf, lookup_cons]
      by_cases hq : q = p
      · simp [hp, hq]
      · simp [hp, hq, Ne.symm hq]
    · rw [if_neg hp, lookup_cons, lookup_cons, ih]
      by_cases he : e.path = q
      · simp [he, he ▸ hp]
      · simp [he]

theorem dedupByPath_of_sorted (h : Sorted FileEntry.path l) : dedupByPath l = l := by
  have hrun (kept l : List FileEntry) (h : Sorted FileEntry.path (kept ++ l)) :
      l.foldl (fun kept e =>
        if kept.getLast?.map FileEntry.path = some e.path then kept else kept ++ [e]) kept =
        kept ++ l := by
    induction l generalizing kept with
    | nil => simp
    | cons e l ih =>
      have hne : kept.getLast?.map FileEntry.path ≠ some e.path := by
        intro heq
        obtain ⟨d, hd, hpath⟩ := Option.map_eq_some_iff.1 heq
        exact (h.of_append.2.2 d (mem_of_getLast? hd) e mem_cons_self).ne hpath
      rw [foldl_cons, if_neg hne, ih, append_assoc, singleton_append]
      rwa [append_assoc, singleton_append]
  exact hrun [] l h

section

variable (fromLines hashBytes)

/-- What a merged text is: the blobs under the three hashes, merged line by line. -/
def IsTextMerge (baseHash aHash bHash : FileHash) (text : Bytes) : Prop :=
  ∃ base a b, hashBytes base = baseHash ∧ hashBytes a = aHash ∧ hashBytes b = bHash ∧
    threeWayTextMerge fromLines base a b = .merged text

/-- The files the text pass tries in order, each with the entry it is merged to. -/
def outcomes (content : Content) : List TextMergeTodo → List (TextMergeTodo × Option FileEntry)
  | [] => []
  | todo :: todos =>
    match textMerge fromLines hashBytes content todo with
    | none => (todo, none) :: outcomes content todos
    | some text => (todo, some (mergedEntry hashBytes todo text todo.a)) ::
        outcomes (content.putMerged hashBytes todo text) todos

end

def unmerged (results : List (TextMergeTodo × Option FileEntry)) : List FileConflict :=
  (results.filter (·.2.isNone)).map (·.1.conflict)

def resolvedAt (results : List (TextMergeTodo × Option FileEntry)) (path : String)
    (entry : Option FileEntry) : Option FileEntry :=
  ((lookup (·.1.path) results path).bind Prod.snd).or entry

theorem get?_eq_some {content : Content} {hash : FileHash}
    (h : content.get? hashBytes hash = some data) : hashBytes data = hash := by
  simpa using (Option.filter_eq_some_iff.1 h).2

theorem textMerge_sound (h : textMerge fromLines hashBytes content todo = some text) :
    IsTextMerge fromLines hashBytes todo.baseHash todo.a.hash todo.b.hash text := by
  rw [textMerge] at h
  split_ifs at h
  split at h
  · next base a b hbase ha hb =>
    split_ifs at h
    split at h
    · next text' hmerge =>
      split_ifs at h
      cases h
      exact ⟨base, a, b, get?_eq_some hbase, get?_eq_some ha, get?_eq_some hb, hmerge⟩
    · cases h
  · cases h

theorem map_fst_outcomes (content : Content) (todos : List TextMergeTodo) :
    (outcomes fromLines hashBytes content todos).map Prod.fst = todos := by
  induction todos generalizing content with
  | nil => rfl
  | cons todo todos ih =>
    rw [outcomes]
    split
    all_goals rw [map_cons, ih]

theorem outcomes_sound (h : (todo, some e) ∈ outcomes fromLines hashBytes content todos) :
    ∃ text, IsTextMerge fromLines hashBytes todo.baseHash todo.a.hash todo.b.hash text ∧
      e = mergedEntry hashBytes todo text todo.a := by
  induction todos generalizing content with
  | nil => cases h
  | cons todo' todos ih =>
    rw [outcomes] at h
    split at h
    · rcases mem_cons.1 h with h | h
      · cases h
      · exact ih h
    · next text htext =>
      rcases mem_cons.1 h with h | h
      · cases h
        exact ⟨text, textMerge_sound htext, rfl⟩
      · exact ih h

theorem resolvedAt_cons : resolvedAt (r :: results) q e =
      if r.1.path = q then r.2.or e else resolvedAt results q e := by
  rw [resolvedAt, lookup_cons]
  split_ifs <;> rfl

theorem resolvedAt_of_not_mem (h : q ∉ todos.map TextMergeTodo.path) :
    resolvedAt (outcomes fromLines hashBytes content todos) q e = e := by
  have hnone : lookup (·.1.path) (outcomes fromLines hashBytes content todos) q = none := by
    rw [lookup_eq_none]
    intro r hr hq
    apply h
    rw [← map_fst_outcomes content todos, map_map]
    exact mem_map.2 ⟨r, hr, hq⟩
  rw [resolvedAt, hnone]
  rfl

theorem foldl_textStep_spec (hnd : (todos.map TextMergeTodo.path).Nodup)
    (ha : ∀ todo ∈ todos, lookup FileEntry.path r.merged todo.path = some todo.a) :
    (todos.foldl (textStep fromLines hashBytes) r).conflicts =
        r.conflicts ++ unmerged (outcomes fromLines hashBytes r.content todos) ∧
      (todos.foldl (textStep fromLines hashBytes) r).merged.map FileEntry.path =
        r.merged.map FileEntry.path ∧
      ∀ q, lookup FileEntry.path (todos.foldl (textStep fromLines hashBytes) r).merged q =
        resolvedAt (outcomes fromLines hashBytes r.content todos) q
          (lookup FileEntry.path r.merged q) := by
  induction todos generalizing r with
  | nil => simp [outcomes, unmerged, resolvedAt]
  | cons todo todos ih =>
    obtain ⟨hhead, hnd⟩ := nodup_cons.1 hnd
    rw [foldl_cons, textStep, outcomes]
    cases htext : textMerge fromLines hashBytes r.content todo with
    | none =>
      obtain ⟨hc, hm, hl⟩ := ih (r := { r with conflicts := r.conflicts ++ [todo.conflict] }) hnd
        fun t ht => ha t (mem_cons_of_mem _ ht)
      refine ⟨?_, hm, fun q => ?_⟩
      · simpa [unmerged] using hc
      · rw [hl, resolvedAt_cons]
        split_ifs with hq
        · exact resolvedAt_of_not_mem (hq ▸ hhead)
        · rfl
    | some text =>
      have hpatch (q : String) := lookup_patchEntry (f := mergedEntry hashBytes todo text)
        (fun _ => rfl) todo.path q r.merged
      have hrest : ∀ t ∈ todos, lookup FileEntry.path
          (patchEntry todo.path (mergedEntry hashBytes todo text) r.merged) t.path = some t.a := by
        intro t ht
        rw [hpatch, if_neg]
        · exact ha t (mem_cons_of_mem _ ht)
        · intro heq
          exact hhead (heq ▸ mem_map_of_mem ht)
      obtain ⟨hc, hm, hl⟩ := ih (r := ⟨r.content.putMerged hashBytes todo text,
        patchEntry todo.path (mergedEntry hashBytes todo text) r.merged, r.conflicts,
        r.textMerged + 1⟩) hnd hrest
      refine ⟨hc, hm.trans ?_, fun q => ?_⟩
      · exact patchEntry_paths (f := mergedEntry hashBytes todo text) (fun _ => rfl) _
      rw [hl, hpatch, resolvedAt_cons]
      split_ifs with hq htodo htodo
      · rw [resolvedAt_of_not_mem (hq ▸ hhead), hq, ha todo mem_cons_self]
        rfl
      · exact absurd hq.symm htodo
      · exact absurd htodo.symm hq
      · rfl

/-- A merged list that holds every path once, each file left to the text pass at the first side's
entry. -/
structure MergeState.Provisional (state : MergeState) : Prop where
  paths : (state.merged.map FileEntry.path).Nodup
  todos : (state.textTodo.map TextMergeTodo.path).Nodup
  first : ∀ todo ∈ state.textTodo, lookup FileEntry.path state.merged todo.path = some todo.a

theorem merged_resolve {state : MergeState} (h : state.Provisional) :
    (resolve fromLines hashBytes content state).merged = sortBy FileEntry.path
        (state.textTodo.foldl (textStep fromLines hashBytes)
          ⟨content, state.merged, state.conflicts, 0⟩).merged ∧
      Sorted FileEntry.path (resolve fromLines hashBytes content state).merged := by
  obtain ⟨-, hm, -⟩ := foldl_textStep_spec
    (r := ⟨content, state.merged, state.conflicts, 0⟩) h.todos h.first
  have hsort := sortBy_sorted (hm ▸ h.paths)
  rw [resolve, dedupByPath_of_sorted hsort]
  exact ⟨rfl, hsort⟩

theorem resolve_spec {state : MergeState} (h : state.Provisional) :
    (resolve fromLines hashBytes content state).conflicts = state.conflicts ++
        unmerged (outcomes fromLines hashBytes content state.textTodo) ∧
      Sorted FileEntry.path (resolve fromLines hashBytes content state).merged ∧
      ∀ q, lookup FileEntry.path (resolve fromLines hashBytes content state).merged q =
        resolvedAt (outcomes fromLines hashBytes content state.textTodo) q
          (lookup FileEntry.path state.merged q) := by
  obtain ⟨hc, -, hl⟩ := foldl_textStep_spec
    (r := ⟨content, state.merged, state.conflicts, 0⟩) h.todos h.first
  refine ⟨hc, (merged_resolve h).2, fun q => ?_⟩
  rw [(merged_resolve h).1, lookup_sortBy]
  exact hl q

theorem length_resolve {state : MergeState} (h : state.Provisional) :
    (resolve fromLines hashBytes content state).merged.length = state.merged.length := by
  obtain ⟨-, hm, -⟩ := foldl_textStep_spec
    (r := ⟨content, state.merged, state.conflicts, 0⟩) h.todos h.first
  rw [(merged_resolve h).1, sortBy_perm.length_eq]
  simpa using congrArg List.length hm

theorem mem_outcomes_of_lookup
    (h : (lookup (·.1.path) (outcomes fromLines hashBytes content todos) q).bind Prod.snd = some e) :
    ∃ todo ∈ todos, todo.path = q ∧ (todo, some e) ∈ outcomes fromLines hashBytes content todos := by
  obtain ⟨⟨todo, o⟩, hlook, ho⟩ := Option.bind_eq_some_iff.1 h
  obtain ⟨hmem, hq⟩ := mem_of_lookup hlook
  cases ho
  refine ⟨todo, ?_, hq, hmem⟩
  rw [← map_fst_outcomes content todos]
  exact mem_map_of_mem (f := Prod.fst) hmem

end Obsetync
