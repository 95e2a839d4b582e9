import Mathlib.Control.Basic
import Mathlib.Tactic.Common

/-!
# Programs over the operations of a data type

A program has a state of its own and gives commands to a data type, whose answers decide how it goes on. What
the commands do is an interpretation: the same program runs on a memory with pointers and on the lists that
the memory stands for.

* `Prog.run_refines`: if each command agrees on related states, so does every program (data refinement).
* `Code.wp`: the program runs through and its end meets a postcondition; one rule for each construct, and
  `Code.wp_mono`.
-/

namespace SocketAcl

universe u

/-- A program: it ends, stops with an error, or gives a command and goes on with the answer. -/
inductive Prog (γ : Type u) (ρ : γ → Type u) (α : Type u)
  | done (a : α)
  | fail
  | command (c : γ) (rest : ρ c → Prog γ ρ α)

/-- What the commands do to a state; `none` where one is undefined. -/
abbrev Interp (γ : Type u) (ρ : γ → Type u) (σ : Type*) := (c : γ) → σ → Option (ρ c × σ)

namespace Prog

variable {γ : Type u} {ρ : γ → Type u} {α β : Type u}

def bind : Prog γ ρ α → (α → Prog γ ρ β) → Prog γ ρ β
  | done a, k => k a
  | fail, _ => fail
  | command c rest, k => command c fun r => (rest r).bind k

instance : Monad (Prog γ ρ) where
  pure := done
  bind := bind

variable {σ τ : Type*} {exec : Interp γ ρ σ} {exec' : Interp γ ρ τ} {s : σ} {t : τ}

def run (exec : Interp γ ρ σ) : Prog γ ρ α → σ → Option (α × σ)
  | done a, s => some (a, s)
  | fail, _ => none
  | command c rest, s => (exec c s).bind fun answer => (rest answer.1).run exec answer.2

theorem run_bind (p : Prog γ ρ α) (k : α → Prog γ ρ β) (s : σ) :
    (p >>= k).run exec s = (p.run exec s).bind fun result => (k result.1).run exec result.2 := by
  change (p.bind k).run exec s = _
  induction p generalizing s with
  | done a => rfl
  | fail => rfl
  | command c rest ih =>
    simp only [bind, run, Option.bind_assoc]
    exact congrArg _ (funext fun answer => ih answer.1 answer.2)

/-- Where the commands are defined on the right, they are on the left, with the same answer and related
states. -/
def Refines (R : σ → τ → Prop) (exec : Interp γ ρ σ) (exec' : Interp γ ρ τ) : Prop :=
  ∀ c s t r t', R s t → exec' c t = some (r, t') → ∃ s', exec c s = some (r, s') ∧ R s' t'

/-- **Data refinement**: what holds of each command holds of every program. -/
theorem run_refines {R : σ → τ → Prop} (h : Refines R exec exec') (p : Prog γ ρ α) {a : α} {t' : τ}
    (hR : R s t) (hrun : p.run exec' t = some (a, t')) : ∃ s', p.run exec s = some (a, s') ∧ R s' t' := by
  induction p generalizing s t with
  | done b =>
    obtain ⟨rfl, rfl⟩ := Prod.mk.inj (Option.some.inj hrun)
    exact ⟨s, rfl, hR⟩
  | fail => cases hrun
  | command c rest ih =>
    obtain ⟨⟨r, u⟩, hc, hrest⟩ := Option.bind_eq_some_iff.1 hrun
    obtain ⟨v, hv, hR'⟩ := h c s t r u hR hc
    obtain ⟨s', hs', hR''⟩ := ih r hR' hrest
    exact ⟨s', by rw [run, hv]; exact hs', hR''⟩

end Prog

/-- A program with a state of its own. -/
abbrev Code (γ : Type u) (ρ : γ → Type u) (Θ α : Type u) := StateT Θ (Prog γ ρ) α

namespace Code

variable {γ : Type u} {ρ : γ → Type u} {Θ α β : Type u} {σ : Type*}

def perform (c : γ) : Code γ ρ Θ (ρ c) := fun θ => .command c fun r => .done (r, θ)

def fail : Code γ ρ Θ α := fun _ => .fail

/-- **Weakest precondition**: from these states the program runs through, and its end meets `Q`. -/
def wp (exec : Interp γ ρ σ) (p : Code γ ρ Θ α) (Q : α → Θ → σ → Prop) (θ : Θ) (s : σ) : Prop :=
  ∃ a θ' s', (p θ).run exec s = some ((a, θ'), s') ∧ Q a θ' s'

variable {exec : Interp γ ρ σ} {Q Q' : α → Θ → σ → Prop} {θ : Θ} {s : σ}

theorem wp_mono {p : Code γ ρ Θ α} (h : wp exec p Q θ s) (hQ : ∀ a θ s, Q a θ s → Q' a θ s) :
    wp exec p Q' θ s := by
  obtain ⟨a, θ', s', hrun, hq⟩ := h
  exact ⟨a, θ', s', hrun, hQ a θ' s' hq⟩

@[simp] theorem wp_pure (a : α) : wp exec (pure a) Q θ s ↔ Q a θ s := by
  constructor
  · rintro ⟨_, _, _, hrun, hq⟩
    cases hrun
    exact hq
  · exact fun hq => ⟨a, θ, s, rfl, hq⟩

@[simp] theorem wp_bind (p : Code γ ρ Θ α) (k : α → Code γ ρ Θ β) {Q : β → Θ → σ → Prop} :
    wp exec (p >>= k) Q θ s ↔ wp exec p (fun a θ s => wp exec (k a) Q θ s) θ s := by
  have hrun : ((p >>= k) θ).run exec s =
      ((p θ).run exec s).bind fun result => (k result.1.1 result.1.2).run exec result.2 :=
    Prog.run_bind (p θ) (fun result => k result.1 result.2) s
  constructor
  · rintro ⟨b, θ', s', h, hq⟩
    obtain ⟨⟨⟨a, θ₁⟩, s₁⟩, h₁, h₂⟩ := Option.bind_eq_some_iff.1 (hrun.symm.trans h)
    exact ⟨a, θ₁, s₁, h₁, b, θ', s', h₂, hq⟩
  · rintro ⟨a, θ₁, s₁, h₁, b, θ', s', h₂, hq⟩
    exact ⟨b, θ', s', hrun.trans (Option.bind_eq_some_iff.2 ⟨_, h₁, h₂⟩), hq⟩

@[simp] theorem wp_discard (p : Code γ ρ Θ α) {Q : PUnit → Θ → σ → Prop} :
    wp exec (discard p) Q θ s ↔ wp exec p (fun _ => Q ⟨⟩) θ s := by
  have hdiscard : discard p = p >>= fun _ => pure ⟨⟩ := rfl
  simp only [hdiscard, wp_bind, wp_pure]

@[simp] theorem wp_get {Q : Θ → Θ → σ → Prop} : wp exec get Q θ s ↔ Q θ θ s := by
  constructor
  · rintro ⟨_, _, _, hrun, hq⟩
    cases hrun
    exact hq
  · exact fun hq => ⟨θ, θ, s, rfl, hq⟩

@[simp] theorem wp_modify {Q : PUnit → Θ → σ → Prop} (f : Θ → Θ) : wp exec (modify f) Q θ s ↔ Q ⟨⟩ (f θ) s := by
  constructor
  · rintro ⟨_, _, _, hrun, hq⟩
    cases hrun
    exact hq
  · exact fun hq => ⟨⟨⟩, f θ, s, rfl, hq⟩

@[simp] theorem wp_perform (c : γ) {Q : ρ c → Θ → σ → Prop} :
    wp exec (perform c) Q θ s ↔ ∃ r s', exec c s = some (r, s') ∧ Q r θ s' := by
  constructor
  · rintro ⟨r, θ', s', hrun, hq⟩
    obtain ⟨⟨r', t⟩, hc, hdone⟩ := Option.bind_eq_some_iff.1 hrun
    cases hdone
    exact ⟨_, _, hc, hq⟩
  · rintro ⟨r, s', hc, hq⟩
    exact ⟨r, θ, s', Option.bind_eq_some_iff.2 ⟨_, hc, rfl⟩, hq⟩

@[simp] theorem wp_fail : ¬ wp exec (fail : Code γ ρ Θ α) Q θ s := by
  rintro ⟨_, _, _, hrun, _⟩
  cases hrun

@[simp] theorem wp_ite {c : Prop} [Decidable c] {p p' : Code γ ρ Θ α} :
    wp exec (if c then p else p') Q θ s ↔ if c then wp exec p Q θ s else wp exec p' Q θ s := by
  split <;> rfl

end Code

end SocketAcl
