import Mathlib.Data.List.Basic
import Mathlib.Tactic.Common

/-!
# Formatted input

A stream is the text still to be read and a flag that is set when an extraction fails. A formatted
extraction skips space and hands the rest to a scanner, which takes a field from its front and may
still fail. While the flag is set, nothing is extracted and variables keep their values; so it is at
the end of the text. A scanner that fails stores its own value.

* `field?`: the field at the front of a text, if an extraction of it succeeds.
* `extract_some`, `extract_none`: an extraction succeeds exactly if there is a field, and how the
  stream is left does not depend on the variable.
* `skipLine`: what `ignore` leaves of a text.
-/

namespace SocketAcl

structure IStream (α : Type*) where
  rest : List α
  /-- `failbit` -/
  failed : Bool

namespace IStream

variable {α β : Type*}

/-- What a scanner makes of a text: the value it stores, whether it succeeds, and what it leaves. -/
structure Scanned (α β : Type*) where
  value : β
  ok : Bool
  rest : List α

/-- The field at the front of a text, and what is behind it. -/
def field? (space : α → Bool) (scan : List α → Scanned α β) (text : List α) : Option (β × List α) :=
  match text.dropWhile space with
  | [] => none
  | c :: t => if (scan (c :: t)).ok then some ((scan (c :: t)).value, (scan (c :: t)).rest) else none

/-- `cin >> x`, where the variable holds `x`: what it holds then, and the stream. -/
def extract (space : α → Bool) (scan : List α → Scanned α β) (x : β) (s : IStream α) : β × IStream α :=
  if s.failed then (x, s)
  else
    match s.rest.dropWhile space with
    | [] => (x, ⟨[], true⟩)
    | c :: t => ((scan (c :: t)).value, ⟨(scan (c :: t)).rest, !(scan (c :: t)).ok⟩)

/-- `ignore(n, delim)`, as long as nothing failed: `n` elements are dropped, or all up to and with `delim`. -/
def skipLine [DecidableEq α] (delim : α) : ℕ → List α → List α
  | 0, t => t
  | _ + 1, [] => []
  | n + 1, c :: t => if c = delim then t else skipLine delim n t

variable {space : α → Bool} {scan : List α → Scanned α β} {s : IStream α} {t t' : List α} {x v : β}

@[simp] theorem extract_failed (h : s.failed = true) : s.extract space scan x = (x, s) := if_pos h

/-- An extraction of a field that is there. -/
theorem extract_some (h : field? space scan t = some (v, t')) :
    (⟨t, false⟩ : IStream α).extract space scan x = (v, ⟨t', false⟩) := by
  unfold field? at h
  simp only [extract, Bool.false_eq_true, if_false]
  cases hdrop : t.dropWhile space with
  | nil =>
    rw [hdrop] at h
    cases h
  | cons c rest =>
    rw [hdrop] at h
    simp only at h ⊢
    split at h
    · rename_i hok
      obtain ⟨rfl, rfl⟩ := Prod.mk.inj (Option.some.inj h)
      rw [hok]
      rfl
    · cases h

/-- An extraction of a field that is not there sets the flag. -/
theorem extract_none (h : field? space scan t = none) :
    ((⟨t, false⟩ : IStream α).extract space scan x).2.failed = true := by
  unfold field? at h
  simp only [extract, Bool.false_eq_true, if_false]
  cases hdrop : t.dropWhile space with
  | nil => rfl
  | cons c rest =>
    rw [hdrop] at h
    simp only at h ⊢
    split at h
    · cases h
    · rename_i hok
      simpa using hok

/-- A scanner that takes whatever there is fails at the end of the text only, where the variable keeps its value. -/
theorem extract_end (hscan : ∀ t, (scan t).ok = true) (h : field? space scan t = none) :
    (⟨t, false⟩ : IStream α).extract space scan x = (x, ⟨[], true⟩) := by
  unfold field? at h
  simp only [extract, Bool.false_eq_true, if_false]
  cases hdrop : t.dropWhile space with
  | nil => rfl
  | cons c rest =>
    rw [hdrop] at h
    simp [hscan] at h

/-- At the end of the text nothing is extracted, and there is nothing left. -/
theorem extract_nil (h : s.rest = []) : s.extract space scan x = (x, ⟨[], true⟩) := by
  obtain ⟨rest, failed⟩ := s
  obtain rfl : rest = [] := h
  cases failed <;> rfl

end IStream

end SocketAcl
