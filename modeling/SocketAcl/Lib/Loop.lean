import Mathlib.Computability.StateTransition
import Mathlib.Tactic.Common

/-!
# Loops that end and loops that do not

A loop is a function `σ → Option σ`, one iteration at a time: `none` where it is left. It
performs finitely many iterations from `s` exactly if `StateTransition.eval` is defined there.

* `eval_dom_of_none`, `eval_dom_of_reaches`: it ends where an iteration leaves it, and ends where it
  ends further on.
* `not_eval_dom`: it does not end where every iteration leads to another one.
* `reaches_inv_of_dom`: a loop that ends keeps what its iterations keep until they get there.
-/

namespace SocketAcl

open StateTransition

variable {σ : Type*} {f : σ → Option σ} {s t : σ}

theorem eval_dom_of_none (h : f s = none) : (eval f s).Dom :=
  Part.dom_iff_mem.2 ⟨s, mem_eval.2 ⟨Relation.ReflTransGen.refl, h⟩⟩

/-- Iterations that were made do not matter. -/
theorem eval_dom_of_reaches (h : Reaches f s t) : (eval f s).Dom ↔ (eval f t).Dom := by
  rw [reaches_eval h]

/-- What every iteration keeps. -/
theorem reaches_inv {I : σ → Prop} (hstep : ∀ s t, I s → f s = some t → I t) (hs : I s) (h : Reaches f s t) :
    I t := by
  induction h with
  | refl => exact hs
  | tail _ hlast ih => exact hstep _ _ ih hlast

/-- **Divergence.** A loop does not end where each iteration leads to one that can be made. -/
theorem not_eval_dom {I : σ → Prop} (hstep : ∀ s, I s → ∃ t, f s = some t ∧ I t) (hs : I s) :
    ¬ (eval f s).Dom := by
  intro h
  obtain ⟨t, ht⟩ := Part.dom_iff_mem.1 h
  obtain ⟨hreach, hnone⟩ := mem_eval.1 ht
  have hkeep : ∀ s u, I s → f s = some u → I u := by
    intro s u hI hu
    obtain ⟨v, hv, hIv⟩ := hstep s hI
    rw [hu] at hv
    exact Option.some.inj hv ▸ hIv
  obtain ⟨u, hu, -⟩ := hstep t (reaches_inv hkeep hs hreach)
  rw [hnone] at hu
  cases hu

/-- **What a loop that ends keeps**: an iteration keeps it, or leads to where each iteration leads to another one. -/
theorem reaches_inv_of_dom {I J : σ → Prop} (hstep : ∀ s t, I s → f s = some t → I t ∨ J t)
    (hspin : ∀ s, J s → ∃ t, f s = some t ∧ J t) (hs : I s) (hends : (eval f s).Dom) (h : Reaches f s t) : I t := by
  induction h with
  | refl => exact hs
  | @tail u v hreach hlast ih =>
    rcases hstep u v ih hlast with hI | hJ
    · exact hI
    · have hv : (eval f v).Dom := (eval_dom_of_reaches (hreach.tail hlast)).1 hends
      exact absurd hv (not_eval_dom hspin hJ)

end SocketAcl
