import Obsetync.Avl
import Obsetync.Journal.Record

/-! The persistent path index, whose nodes are never assigned and are shared between versions. -/

namespace Obsetync.PathIndex
open List

open Journal (JsString)
open Avl.Tree (balance first)

/-- `PathNode`; its `height` and `size` are computed from its children when it is made. -/
abbrev Root (V : Type) := Avl.Tree JsString V

variable {V : Type}

/-- `none` is the argument itself; `Object.is` is the equality of `V`. -/
def insert [DecidableEq V] : Root V → JsString → V → Option (Root V)
  | .nil, key, value => some (.node key value .nil .nil)
  | .node rootKey rootValue left right, key, value =>
    if key = rootKey then if value = rootValue then none else some (.node key value left right)
    else if key < rootKey then
      (insert left key value).map fun left => balance (.node rootKey rootValue left right)
    else (insert right key value).map fun right => balance (.node rootKey rootValue left right)

def remove : Root V → JsString → Option (Root V)
  | .nil, _ => none
  | .node rootKey rootValue left right, key =>
    if key < rootKey then
      (remove left key).map fun left => balance (.node rootKey rootValue left right)
    else if rootKey < key then
      (remove right key).map fun right => balance (.node rootKey rootValue left right)
    else match left, right with
      | .nil, right => some right
      | left, .nil => some left
      | left, .node rightKey rightValue rightLeft rightRight =>
        let right := Avl.Tree.node rightKey rightValue rightLeft rightRight
        let successor := first rightKey rightValue rightLeft
        some (balance (.node successor.1 successor.2 left ((remove right successor.1).getD right)))

/-- The two loops of `iterate`, one turn of either at a time. -/
def iterate : Nat → Root V → List (JsString × V × Root V) → Option (List (JsString × V))
  | _, .nil, [] => some []
  | 0, _, _ => none
  | fuel + 1, .nil, (key, value, right) :: stack => do
    let rest ← iterate fuel right stack
    return (key, value) :: rest
  | fuel + 1, .node key value left right, stack => iterate fuel left ((key, value, right) :: stack)

def entries (root : Root V) : Option (List (JsString × V)) := iterate (2 * root.size) root []

inductive Change (V : Type) where
  | set (key : JsString) (value : V)
  | delete (key : JsString)

def Change.root [DecidableEq V] (root : Root V) : Change V → Option (Root V)
  | .set key value => insert root key value
  | .delete key => remove root key

/-- The index objects, by their `root`, and those that were returned so far. -/
structure World (V : Type) where
  objects : List (Root V) := [.nil]
  versions : List Nat := [0]

def withRoot (objects : List (Root V)) (this : Nat) : Option (Root V) → List (Root V) × Nat
  | none => (objects, this)
  | some root => ((objects ++ [Avl.Tree.nil]).set objects.length root, objects.length)

def rootOf (objects : List (Root V)) (this : Nat) : Root V := objects.getD this .nil

def World.call [DecidableEq V] (world : World V) (call : Nat × Change V) : World V :=
  match world.versions[call.1]? with
  | none => world
  | some this =>
    let (objects, version) := withRoot world.objects this (call.2.root (rootOf world.objects this))
    ⟨objects, world.versions ++ [version]⟩

def World.run [DecidableEq V] (world : World V) (calls : List (Nat × Change V)) : World V :=
  calls.foldl World.call world

def histories : List (List (Change V)) → List (Nat × Change V) → List (List (Change V))
  | known, [] => known
  | known, call :: calls =>
    histories (known ++ (known[call.1]?.map (· ++ [call.2])).toList) calls

def Change.apply (m : JsString → Option V) : Change V → JsString → Option V
  | .set key value => Function.update m key (some value)
  | .delete key => Function.update m key none

def mapOf (history : List (Change V)) : JsString → Option V :=
  history.foldl Change.apply fun _ => none

structure Answers (root : Root V) (m : JsString → Option V) : Prop where
  get : ∀ key, root.get key = m key
  entries : ∃ entries, PathIndex.entries root = some entries ∧ root.size = entries.length ∧
    entries.Pairwise (·.1 < ·.1) ∧ ∀ key value, (key, value) ∈ entries ↔ m key = some value
  balanced : root.Balanced

theorem getD_insert [DecidableEq V] {t : Root V} (h : t.Balanced) :
    (insert t k v).getD t = t.insert k v := by
  induction t with
  | nil => rfl
  | node key value left right ihl ihr =>
    have hkeep := h.balance_eq
    rw [insert, Avl.Tree.insert]
    split_ifs with hkey hvalue
    · rw [hkey, hvalue]
      rfl
    · rfl
    · rw [← ihl h.1]
      cases insert left k v with
      | none => exact hkeep.symm
      | some => rfl
    · rw [← ihr h.2.1]
      cases insert right k v with
      | none => exact hkeep.symm
      | some => rfl

theorem getD_remove (h : t.Balanced) : (remove t k).getD t = t.remove k := by
  induction t generalizing k with
  | nil => rfl
  | node key value left right ihl ihr =>
    have hkeep := h.balance_eq
    rw [remove.eq_def, Avl.Tree.remove.eq_def]
    dsimp only
    split_ifs
    · rw [← ihl h.1]
      cases remove left k with
      | none => exact hkeep.symm
      | some => rfl
    · rw [← ihr h.2.1]
      cases remove right k with
      | none => exact hkeep.symm
      | some => rfl
    · cases left with
      | nil => rfl
      | node =>
        cases right with
        | nil => rfl
        | node =>
          dsimp only
          rw [Option.getD_some, ihr h.2.1]

theorem iterate_eq {t : Root V} {fuel : Nat} {stack : List (JsString × V × Root V)} :
    iterate (2 * t.size + fuel) t stack = (iterate fuel .nil stack).map (t.toList ++ ·) := by
  induction t generalizing fuel stack with
  | nil =>
    rw [Avl.Tree.size, Nat.mul_zero, Nat.zero_add]
    exact Option.map_id'.symm
  | node key value left right ihl ihr =>
    have hfuel : 2 * (Avl.Tree.node key value left right).size + fuel =
        2 * left.size + (2 * right.size + fuel + 1) + 1 := by
      rw [Avl.Tree.size]
      omega
    rw [hfuel, iterate, ihl, iterate, ihr]
    cases iterate fuel .nil stack with
    | none => rfl
    | some rest => simp [Avl.Tree.toList]

structure Kept (root : Root V) (history : List (Change V)) : Prop where
  sorted : root.Sorted
  balanced : root.Balanced
  get : ∀ key, root.get key = mapOf history key

def Holds (objects : List (Root V)) (version : Nat) (history : List (Change V)) : Prop :=
  version < objects.length ∧ Kept (rootOf objects version) history

section Versions

variable {objects : List (Root V)} {root : Root V} {history : List (Change V)} {world : World V}

theorem Kept.answers (h : Kept root history) : Answers root (mapOf history) := by
  refine ⟨h.get, ⟨root.toList, ?_, root.size_eq_length, h.sorted, ?_⟩, h.balanced⟩
  · exact (@iterate_eq _ root 0 []).trans (by simp [iterate])
  · intro key value
    rw [← h.sorted.get_eq_some, h.get]

theorem withRoot_spec (h : this < objects.length) (root : Option (Root V)) :
    objects <+: (withRoot objects this root).1 ∧
      (withRoot objects this root).2 < (withRoot objects this root).1.length ∧
      rootOf (withRoot objects this root).1 (withRoot objects this root).2 =
        root.getD (rootOf objects this) := by
  cases root with
  | none => exact ⟨prefix_refl _, h, rfl⟩
  | some root => simp [withRoot, rootOf]

theorem Holds.mono (hgrow : objects <+: later) (h : Holds objects version history) :
    Holds later version history := by
  obtain ⟨more, rfl⟩ := hgrow
  refine ⟨h.1.trans_le (prefix_append _ _).length_le, ?_⟩
  rw [rootOf, getD_append _ _ _ _ h.1]
  exact h.2

variable [DecidableEq V]

theorem Kept.change (h : Kept root history) (change : Change V) :
    Kept ((change.root root).getD root) (history ++ [change]) := by
  have hmap : mapOf (history ++ [change]) = change.apply (mapOf history) := by
    rw [mapOf, foldl_append]
    rfl
  cases change with
  | set key value =>
    rw [Change.root, getD_insert h.balanced]
    refine ⟨h.sorted.insert, h.balanced.insert.1, fun k => ?_⟩
    rw [h.sorted.get_insert, hmap, Change.apply, Function.update_apply, h.get]
  | delete key =>
    rw [Change.root, getD_remove h.balanced]
    refine ⟨h.sorted.remove, h.balanced.remove.1, fun k => ?_⟩
    rw [h.sorted.get_remove, hmap, Change.apply, Function.update_apply, h.get]

theorem Holds.call (h : Holds objects this history) (change : Change V) :
    objects <+: (withRoot objects this (change.root (rootOf objects this))).1 ∧
      Holds (withRoot objects this (change.root (rootOf objects this))).1
        (withRoot objects this (change.root (rootOf objects this))).2 (history ++ [change]) := by
  obtain ⟨hgrow, hlt, hroot⟩ := withRoot_spec h.1 (change.root (rootOf objects this))
  exact ⟨hgrow, hlt, hroot ▸ h.2.change change⟩

theorem forall₂_getElem? (h : List.Forall₂ R l m) (i : Nat) :
    (l[i]? = none ∧ m[i]? = none) ∨ ∃ a b, l[i]? = some a ∧ m[i]? = some b ∧ R a b := by
  induction h generalizing i with
  | nil => exact .inl ⟨rfl, rfl⟩
  | cons hab _ ih =>
    cases i with
    | zero => exact .inr ⟨_, _, rfl, rfl, hab⟩
    | succ i => exact ih i

theorem holds_run {known : List (List (Change V))}
    (h : List.Forall₂ (Holds world.objects) world.versions known) (calls : List (Nat × Change V)) :
    List.Forall₂ (Holds (world.run calls).objects) (world.run calls).versions
        (histories known calls) ∧
      world.objects <+: (world.run calls).objects ∧
      world.versions <+: (world.run calls).versions := by
  induction calls generalizing world known with
  | nil => exact ⟨h, prefix_refl _, prefix_refl _⟩
  | cons call calls ih =>
    rw [World.run, foldl_cons, World.call, histories]
    rcases forall₂_getElem? h call.1 with ⟨hthis, hknown⟩ | ⟨this, history, hthis, hknown, hheld⟩
    · rw [hthis, hknown, Option.map_none, Option.toList_none, append_nil]
      exact ih h
    · rw [hthis, hknown]
      obtain ⟨hgrow, hnew⟩ := hheld.call call.2
      have hnext := rel_append (h.imp fun _ _ => Holds.mono hgrow) (.cons hnew .nil)
      obtain ⟨hfinal, hobjects, hversions⟩ := @ih ⟨_, _⟩ _ hnext
      exact ⟨hfinal, hgrow.trans hobjects, (prefix_append _ _).trans hversions⟩

theorem path_index_versions (calls more : List (Nat × Change V)) :
    (World.run {} calls).versions <+: (World.run {} (calls ++ more)).versions ∧
    ∀ world ∈ [World.run {} calls, World.run {} (calls ++ more)],
      List.Forall₂ (fun version history => Answers (rootOf world.objects version) (mapOf history))
        (World.run {} calls).versions (histories [[]] calls) := by
  have hstart : List.Forall₂ (Holds [Avl.Tree.nil]) [0] [([] : List (Change V))] :=
    .cons ⟨Nat.one_pos, Avl.Tree.sorted_nil, trivial, fun _ => rfl⟩ .nil
  obtain ⟨hheld, -, -⟩ := @holds_run _ {} _ _ hstart calls
  obtain ⟨-, hobjects, hversions⟩ := holds_run hheld more
  have hrun : (World.run {} calls).run more = World.run {} (calls ++ more) := foldl_append.symm
  rw [hrun] at hobjects hversions
  refine ⟨hversions, fun world hworld => ?_⟩
  have hprefix : (World.run {} calls).objects <+: world.objects := by
    rcases mem_pair.1 hworld with rfl | rfl
    · exact prefix_refl _
    · exact hobjects
  exact hheld.imp fun _ _ h => (h.mono hprefix).2.answers

end Versions

end Obsetync.PathIndex
