import Obsetync.Bridge
import Obsetync.DiffPage.Agreement

namespace Obsetync
open Fallible Bridge

/-- What the plugin does not look at: the length in bytes, and control characters above ASCII. -/
def WithinServer (path : String) : Prop :=
  path.utf8ByteSize ≤ 4096 ∧ ∀ c ∈ path.toList, ¬ (0x80 ≤ c.toNat ∧ c.toNat ≤ 0x9f)

theorem validVaultPath_iff_safe {path : String} :
    validVaultPath path = true ↔ isSafeVaultPath path = true ∧ WithinServer path := by
  have hunits := DiffPage.Plugin.utf16Length_le path
  have hempty : path.isEmpty = path.toList.isEmpty := by
    rw [Bool.eq_iff_iff, String.isEmpty_iff, List.isEmpty_iff, String.toList_eq_nil_iff]
  have hcontrol : path.toList.any TreeV2.isControl = false ↔
      path.toList.all (fun c => !(c.toNat < 0x20 || c.toNat = 0x7f)) = true ∧
        ∀ c ∈ path.toList, ¬ (0x80 ≤ c.toNat ∧ c.toNat ≤ 0x9f) := by
    rw [List.any_eq_false, List.all_eq_true, ← forall₂_and]
    refine forall₂_congr fun c _ => ?_
    simp only [TreeV2.isControl, Bool.or_eq_true, Bool.and_eq_true, decide_eq_true_eq,
      Bool.not_eq_true', Bool.or_eq_false_iff, decide_eq_false_iff_not]
    omega
  simp only [validVaultPath, isSafeVaultPath, WithinServer, hempty, Bool.if_false_left,
    Bool.and_eq_true, Bool.not_eq_true', Bool.not_eq_true, Bool.or_eq_false_iff,
    decide_eq_false_iff_not, decide_eq_true_eq, hcontrol, not_lt]
  constructor
  · rintro ⟨⟨⟨⟨hne, hsize⟩, hslash⟩, hback⟩, ⟨hascii, hlatin⟩, hsegments⟩
    exact ⟨⟨⟨⟨⟨⟨hne, hunits.trans hsize⟩, hslash⟩, hback⟩, hascii⟩, hsegments⟩, hsize, hlatin⟩
  · rintro ⟨⟨⟨⟨⟨⟨hne, -⟩, hslash⟩, hback⟩, hascii⟩, hsegments⟩, hsize, hlatin⟩
    exact ⟨⟨⟨⟨hne, hsize⟩, hslash⟩, hback⟩, ⟨hascii, hlatin⟩, hsegments⟩

/-- The plugin and the server agree on a path, unless it is one that only the plugin calls safe. -/
theorem safe_path_accepted_iff (path : String) :
    (isSafeVaultPath path = true ↔ validVaultPath path = true ∧ TreeV2.validatePath path = .ok ()) ↔
      (isSafeVaultPath path = true → WithinServer path) := by
  rw [← validVaultPath_iff, and_self, validVaultPath_iff_safe]
  tauto

/-- The plugin calls a name with U+0085 in it safe, and the server refuses it. -/
theorem next_line_refused : isSafeVaultPath (String.singleton (Char.ofNat 0x85)) = true ∧
    validVaultPath (String.singleton (Char.ofNat 0x85)) = false ∧
    TreeV2.validatePath (String.singleton (Char.ofNat 0x85)) =
      .error (TreeV2.invalid "unsafe Tree v2 vault-relative path") := by
  decide +kernel

end Obsetync
