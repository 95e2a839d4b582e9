import SocketAcl.Lib.Utf8
import SocketAcl.Spec.Bytes
import Mathlib.Data.List.DropRight

/-!
# Text of the client (`System.String`, `Encoding.UTF8`)

A `string` is a list of UTF-16 code units, any of them: a surrogate may stand alone.
`Encoding.UTF8` encodes and decodes with replacement.
-/

namespace SocketAcl

/-- `System.String`. -/
abbrev CsString := List UInt16

namespace CsString

/-- `PadRight(n, '\0')`. -/
def padRight (n : ℕ) (s : CsString) : CsString := s ++ List.replicate (n - s.length) 0

/-- `TrimEnd('\0')`. -/
def trimEnd (s : CsString) : CsString := s.rdropWhile (· = 0)

/-- Trimming leaves the text in front of the first NUL alone. -/
theorem takeWhile_trimEnd (s : CsString) : s.trimEnd.takeWhile (· ≠ 0) = s.takeWhile (· ≠ 0) := by
  induction s using List.reverseRecOn with
  | nil => rfl
  | append_singleton s u ih =>
    unfold trimEnd at ih ⊢
    by_cases hu : u = 0
    · rw [List.rdropWhile_concat_pos _ _ _ (by simpa using hu), ih, List.takeWhile_append]
      split
      · rename_i hlen
        rw [hu, (List.takeWhile_prefix _).eq_of_length hlen]
        simp
      · rfl
    · rw [List.rdropWhile_concat_neg _ _ _ (by simpa using hu)]

/-- Trailing NULs are trimmed. -/
theorem trimEnd_nuls (s : CsString) (k : ℕ) : trimEnd (s ++ List.replicate k 0) = s.trimEnd := by
  induction k with
  | zero => rw [List.replicate_zero, List.append_nil]
  | succ k ih =>
    rw [List.replicate_succ', ← List.append_assoc]
    unfold trimEnd at ih ⊢
    rw [List.rdropWhile_concat_pos _ _ _ (by simp), ih]

/-- Without NULs nothing is trimmed. -/
theorem trimEnd_of_no_nul {s : CsString} (h : 0 ∉ s) : s.trimEnd = s := by
  refine List.rdropWhile_eq_self_iff.2 fun hs h0 => h ?_
  have hlast : s.getLast hs = 0 := by simpa using h0
  exact hlast ▸ List.getLast_mem hs

end CsString

/-- `Encoding.UTF8.GetString(buffer, index, count)`: `none` where it throws. -/
def UTF8.getString (buffer : Bytes) (index : ℕ) (count : ℤ) : Option CsString :=
  if 0 ≤ count ∧ index + count ≤ buffer.length then
    some (UTF8.decode none ((buffer.drop index).take count.toNat))
  else none

end SocketAcl
