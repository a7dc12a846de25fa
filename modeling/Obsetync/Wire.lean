import Mathlib

namespace Wire
open List

variable {ε α β : Type} {a : α} {b c : β} {bytes more : List UInt8} {n w : Nat}

def leBytes : Nat → Nat → List UInt8
  | 0, _ => []
  | w + 1, n => UInt8.ofNat n :: leBytes w (n / 256)

def ofLe : List UInt8 → Nat
  | [] => 0
  | b :: bs => b.toNat + 256 * ofLe bs

@[simp] theorem leBytes_length : (leBytes w n).length = w := by
  induction w generalizing n with
  | zero => rfl
  | succ w ih => rw [leBytes, length_cons, ih]

theorem ofLe_leBytes (h : n < 256 ^ w) : ofLe (leBytes w n) = n := by
  induction w generalizing n with
  | zero =>
    rw [pow_zero, Nat.lt_one_iff] at h
    rw [h]
    rfl
  | succ w ih =>
    rw [leBytes, ofLe, ih (Nat.div_lt_of_lt_mul (by rwa [pow_succ'] at h)), UInt8.toNat_ofNat']
    exact Nat.mod_add_div n 256

theorem leBytes_ofLe (bytes : List UInt8) : leBytes bytes.length (ofLe bytes) = bytes := by
  induction bytes with
  | nil => rfl
  | cons b bytes ih =>
    have hdiv : (b.toNat + 256 * ofLe bytes) / 256 = ofLe bytes := by
      have := b.toNat_lt
      omega
    have hmod : UInt8.ofNat (b.toNat + 256 * ofLe bytes) = b := by
      apply UInt8.toNat_inj.1
      have := b.toNat_lt
      rw [UInt8.toNat_ofNat']
      omega
    rw [length_cons, ofLe, leBytes, hdiv, hmod, ih]

theorem ofLe_lt (bytes : List UInt8) : ofLe bytes < 256 ^ bytes.length := by
  induction bytes with
  | nil => exact Nat.one_pos
  | cons b bytes ih =>
    have := b.toNat_lt
    rw [ofLe, length_cons, pow_succ]
    omega

theorem leBytes_inj (hm : m < 256 ^ w) (hn : n < 256 ^ w) (h : leBytes w m = leBytes w n) :
    m = n := by
  rw [← ofLe_leBytes hm, h, ofLe_leBytes hn]

def delimited (w : Nat) (fields : List (List UInt8)) : List UInt8 :=
  fields.flatMap fun field => leBytes w field.length ++ field

theorem delimited_inj (hcount : fields.length = fields'.length)
    (hfits : ∀ field ∈ fields ++ fields', field.length < 256 ^ w)
    (h : delimited w fields = delimited w fields') : fields = fields' := by
  induction fields generalizing fields' with
  | nil => exact (length_eq_zero_iff.1 hcount.symm).symm
  | cons field fields ih =>
    cases fields' with
    | nil => exact absurd hcount (Nat.succ_ne_zero _)
    | cons field' fields' =>
      simp only [delimited, flatMap_cons, append_assoc] at h
      obtain ⟨hsize, h⟩ := append_inj h (by rw [leBytes_length, leBytes_length])
      have hlength := leBytes_inj (hfits field (by simp)) (hfits field' (by simp)) hsize
      obtain ⟨rfl, hrest⟩ := append_inj h hlength
      have hfits' : ∀ f ∈ fields ++ fields', f.length < 256 ^ w := fun f hf => hfits f (by
        rcases mem_append.1 hf with hf | hf <;> simp [hf])
      rw [ih (Nat.succ.inj hcount) hfits' hrest]

def slice (bytes : List UInt8) (offset n : Nat) : Option (List UInt8) :=
  if offset + n ≤ bytes.length then some ((bytes.drop offset).take n) else none

theorem drop_of_slice (h : slice bytes offset n = some more) :
    bytes.drop offset = more ++ bytes.drop (offset + n) ∧ more.length = n := by
  rw [slice] at h
  split_ifs at h with hle
  obtain rfl := Option.some.inj h
  refine ⟨?_, ?_⟩
  · rw [← drop_drop, take_append_drop]
  · rw [length_take, length_drop]
    omega

theorem slice_of_drop (h : bytes.drop offset = more ++ rest) (hn : more.length = n) (hpos : 0 < n) :
    slice bytes offset n = some more := by
  have hlen := congrArg List.length h
  rw [length_drop, length_append] at hlen
  rw [slice, if_pos (by omega), h, ← hn, take_left]

theorem drop_add_of_drop (h : bytes.drop offset = more ++ rest) (hn : more.length = n) :
    bytes.drop (offset + n) = rest := by
  rw [← drop_drop, h, ← hn, drop_left]

/-- Readers take what they need from the front of a buffer. -/
abbrev Reader (ε α : Type) := StateT (List UInt8) (Except ε) α

def take (e : ε) (n : Nat) : Reader ε (List UInt8) := fun bytes =>
  if n ≤ bytes.length then .ok (bytes.take n, bytes.drop n) else .error e

def uint (e : ε) (w : Nat) : Reader ε Nat := do return ofLe (← take e w)

def ask (x : Except ε α) : Reader ε α := fun bytes => x.map fun a => (a, bytes)

def many (r : Reader ε α) : Nat → Reader ε (List α)
  | 0 => pure []
  | n + 1 => do
    let a ← r
    let as ← many r n
    return a :: as

/-- The reader takes exactly `bytes` and answers `a`, whatever follows. -/
def Reads (r : Reader ε α) (bytes : List UInt8) (a : α) : Prop :=
  ∀ rest, r (bytes ++ rest) = .ok (a, rest)

theorem Reads.pure : Reads (pure a : Reader ε α) [] a := fun _ => rfl

theorem Reads.bind (h : Reads r bytes a) (hf : Reads (f a) more b) :
    Reads (r >>= f) (bytes ++ more) b := by
  intro rest
  have hr := h (more ++ rest)
  rw [← append_assoc] at hr
  change (r (bytes ++ more ++ rest) >>= fun p => f p.1 p.2) = _
  rw [hr]
  exact hf rest

theorem Reads.last (h : Reads r bytes a) (hf : Reads (f a) [] b) : Reads (r >>= f) bytes b := by
  have hread := h.bind hf
  rwa [append_nil] at hread

theorem Reads.ask_bind (h : x = .ok a) (hf : Reads (f a) bytes b) :
    Reads (ask x >>= f) bytes b := by
  intro rest
  rw [h]
  exact hf rest

theorem reads_take (h : bytes.length = n) : Reads (take e n) bytes bytes := by
  intro rest
  subst h
  rw [take, if_pos (by simp), take_left, drop_left]

theorem reads_uint (h : n < 256 ^ w) : Reads (uint e w) (leBytes w n) n := by
  have hread : Reads (uint e w) (leBytes w n) (ofLe (leBytes w n)) :=
    Reads.last (f := fun b => pure (ofLe b)) (reads_take leBytes_length) Reads.pure
  rwa [ofLe_leBytes h] at hread

theorem reads_many_map (xs : List γ) (h : ∀ x ∈ xs, Reads r (enc x) (g x)) :
    Reads (many r xs.length) (xs.flatMap enc) (xs.map g) := by
  induction xs with
  | nil => exact Reads.pure
  | cons x xs ih =>
    have htail := ih fun x' hx' => h x' (mem_cons_of_mem _ hx')
    exact (h x mem_cons_self).bind (htail.last Reads.pure)

theorem reads_many (as : List α) (h : ∀ a ∈ as, Reads r (enc a) a) :
    Reads (many r as.length) (as.flatMap enc) as := by
  have hmap := reads_many_map (g := id) as h
  rwa [map_id] at hmap

theorem Reads.inj (h : Reads r bytes a) (h' : Reads r bytes a') : a = a' := by
  have := (h []).symm.trans (h' [])
  simpa using this

section Run

variable {e : ε} {r : Reader ε α} {f : α → Reader ε β} {x : Except ε α} {rest : List UInt8}

theorem bind_run : (r >>= f) bytes = .ok (b, rest) ↔
    ∃ a mid, r bytes = .ok (a, mid) ∧ f a mid = .ok (b, rest) := by
  change (r bytes >>= fun p => f p.1 p.2) = _ ↔ _
  cases r bytes with
  | error e =>
    constructor
    · intro h
      cases h
    · rintro ⟨a, mid, h, -⟩
      cases h
  | ok p =>
    constructor
    · intro h
      exact ⟨p.1, p.2, rfl, h⟩
    · rintro ⟨a, mid, h, hf⟩
      cases h
      exact hf

theorem pure_run : (Pure.pure a : Reader ε α) bytes = .ok (a', rest) ↔ a = a' ∧ bytes = rest := by
  change Except.ok (a, bytes) = _ ↔ _
  rw [Except.ok.injEq, Prod.mk.injEq]

theorem ask_run : ask x bytes = .ok (a, rest) ↔ x = .ok a ∧ bytes = rest := by
  cases x with
  | error e =>
    constructor
    · intro h
      cases h
    · rintro ⟨h, -⟩
      cases h
  | ok a' =>
    change Except.ok (a', bytes) = _ ↔ _
    rw [Except.ok.injEq, Except.ok.injEq, Prod.mk.injEq]

theorem take_run : take e n bytes = .ok (more, rest) ↔ bytes = more ++ rest ∧ more.length = n := by
  rw [take]
  constructor
  · intro h
    split_ifs at h with hle
    cases h
    exact ⟨(take_append_drop n bytes).symm, length_take_of_le hle⟩
  · rintro ⟨rfl, rfl⟩
    rw [if_pos (by simp), take_left, drop_left]

theorem uint_run : uint e w bytes = .ok (n, rest) ↔ bytes = leBytes w n ++ rest ∧ n < 256 ^ w := by
  simp only [uint, bind_run, take_run, pure_run]
  constructor
  · rintro ⟨raw, mid, ⟨rfl, rfl⟩, rfl, rfl⟩
    exact ⟨by rw [leBytes_ofLe], ofLe_lt raw⟩
  · rintro ⟨rfl, hlt⟩
    exact ⟨leBytes w n, rest, ⟨rfl, leBytes_length⟩, ofLe_leBytes hlt, rfl⟩

theorem many_run {p : α → Prop}
    (hr : ∀ bytes a rest, r bytes = .ok (a, rest) → bytes = enc a ++ rest ∧ p a)
    (h : many r n bytes = .ok (as, rest)) :
    bytes = as.flatMap enc ++ rest ∧ as.length = n ∧ ∀ a ∈ as, p a := by
  induction n generalizing bytes as with
  | zero =>
    obtain ⟨rfl, rfl⟩ := pure_run.1 h
    exact ⟨rfl, rfl, nofun⟩
  | succ n ih =>
    obtain ⟨a, mid, ha, h⟩ := bind_run.1 h
    obtain ⟨as', rest', has, h⟩ := bind_run.1 h
    obtain ⟨rfl, rfl⟩ := pure_run.1 h
    obtain ⟨rfl, hp⟩ := hr _ _ _ ha
    obtain ⟨rfl, rfl, hall⟩ := ih has
    exact ⟨by rw [flatMap_cons, append_assoc], rfl, forall_mem_cons.2 ⟨hp, hall⟩⟩

end Run

end Wire
