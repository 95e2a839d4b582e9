import Mathlib.Tactic.Common

/-!
# Readers of a growing input

A reader takes one value from the front of its input and leaves the rest. It is `Stable` if
what it reads does not depend on what arrives later.

* `Stable.append`: a value is read the same with anything behind it.
* `Stable.part`: where a whole input is needed for a value, no prefix of it gives one.
* `Stable.bind`: readers one after the other.
-/

namespace SocketAcl

variable {α β γ : Type*}

/-- **Stable readers**: what arrives later is left for later. -/
def Stable (p : List β → Option (α × List β)) : Prop :=
  ∀ m v rest more, p m = some (v, rest) → p (m ++ more) = some (v, rest ++ more)

variable {p : List β → Option (α × List β)}

theorem Stable.append (h : Stable p) {w : List β} {v : α} (hw : p w = some (v, [])) (more : List β) :
    p (w ++ more) = some (v, more) := h w v [] more hw

/-- A prefix of an input that is needed whole gives nothing. -/
theorem Stable.part (h : Stable p) {w : List β} {v : α} (hw : p w = some (v, [])) {n : ℕ} (hn : n < w.length) :
    p (w.take n) = none := by
  cases hp : p (w.take n) with
  | none => rfl
  | some r =>
    have hall := h _ _ _ (w.drop n) hp
    rw [List.take_append_drop, hw] at hall
    have hnil := (Prod.mk.inj (Option.some.inj hall)).2
    have hlen := congrArg List.length hnil
    rw [List.length_append, List.length_drop, List.length_nil] at hlen
    omega

/-- Two readers one after the other. -/
theorem Stable.bind {q : α → List β → Option (γ × List β)} (hp : Stable p) (hq : ∀ v, Stable (q v)) :
    Stable fun m => (p m).bind fun r => q r.1 r.2 := by
  intro m v rest more h
  obtain ⟨r, hr, h⟩ := Option.bind_eq_some_iff.1 h
  have hr' := hp m r.1 r.2 more hr
  simp only [hr', Option.bind_some]
  exact hq r.1 r.2 v rest more h

/-- A reader that refuses some values. -/
theorem Stable.guard (hp : Stable p) (c : α → Bool) : Stable fun m => (p m).filter fun r => c r.1 := by
  intro m v rest more h
  obtain ⟨hr, hc⟩ := Option.filter_eq_some_iff.1 h
  simp only [hp m v rest more hr]
  exact Option.filter_eq_some_iff.2 ⟨rfl, hc⟩

end SocketAcl
