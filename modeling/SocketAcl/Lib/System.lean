import Mathlib.Data.List.Basic
import Mathlib.Tactic.Common

/-!
# Labelled systems and their runs

A system has an initial state and a partial step function: a label says which party
moves and what the environment decides for it, and the step is undefined where the
label is not enabled.

* `Reach C`: the states reached by runs all of whose steps meet the condition `C` (a
  relation of the state before the step and the label); `Reachable` puts no condition.
* `Reach.inv`: a predicate that holds initially and is kept by every step meeting `C`
  holds of every state of `Reach C`.
* `Reach.inv_with`: the same, using an invariant already proved.
* `Path D s t`: a run from `s` to `t` all of whose steps meet `D`; what every such step keeps,
  the run keeps (`Path.const`).
* `run_follows`: a run followed step by step by another, with some steps for each or none.
* `count T s es`: how many steps of the run meet a test; `run_balance` counts over whole runs what
  each step does to a measure.
* `AllSteps C s es`: every step of the run meets `C`; `run_iff_allSteps`: what a step keeps exactly if it
  meets `C`, and no step brings back, holds behind a run exactly if all its steps meet `C`.
* `exists_path`: steps that make a measure smaller lead to where they stop.
* `exists_reach`: a list of labels that runs through gives a state of `Reach`, by evaluation.
-/

namespace SocketAcl

/-- A labelled system, deterministic once the label is given. -/
structure System (σ ε : Type*) where
  init : σ
  step : σ → ε → Option σ

namespace System

variable {σ ε : Type*} (S : System σ ε)

/-- **Runs under a condition.** The states reached by runs whose every step meets `C`. -/
inductive Reach (C : σ → ε → Prop) : σ → Prop
  | init : Reach C S.init
  | step {s t : σ} {e : ε} : Reach C s → C s e → S.step s e = some t → Reach C t

/-- The states reached by any run. -/
abbrev Reachable : σ → Prop := S.Reach fun _ _ => True

variable {S} {C D : σ → ε → Prop} {I J : σ → Prop} {s t : σ}

/-- **The invariant rule.** -/
theorem Reach.inv (h0 : I S.init)
    (hstep : ∀ s e t, I s → C s e → S.step s e = some t → I t) (h : S.Reach C s) : I s := by
  induction h with
  | init => exact h0
  | step _ hc hs ih => exact hstep _ _ _ ih hc hs

/-- **The invariant rule, over an invariant already proved**: the step may use `J` of the
state before it and of the state after it. -/
theorem Reach.inv_with (hJ : ∀ s, S.Reach C s → J s) (h0 : I S.init)
    (hstep : ∀ s e t, J s → J t → I s → C s e → S.step s e = some t → I t)
    (h : S.Reach C s) : I s := by
  induction h with
  | init => exact h0
  | step hr hc hs ih => exact hstep _ _ _ (hJ _ hr) (hJ _ (.step hr hc hs)) ih hc hs

/-- A condition that implies another in all states that satisfy an invariant of its runs. -/
theorem Reach.mono_with (hJ : ∀ s, S.Reach C s → J s) (hCD : ∀ s e, J s → C s e → D s e) (h : S.Reach C s) :
    S.Reach D s := by
  induction h with
  | init => exact .init
  | step hr hc hs ih => exact .step ih (hCD _ _ (hJ _ hr) hc) hs

/-- **Runs from a state.** The states reached from `s` by steps that meet `D`. -/
inductive Path (S : System σ ε) (D : σ → ε → Prop) (s : σ) : σ → Prop
  | refl : Path S D s s
  | step {t u : σ} {e : ε} : Path S D s t → D t e → S.step t e = some u → Path S D s u

theorem Path.single {e : ε} (hd : D s e) (hs : S.step s e = some t) : S.Path D s t := .step .refl hd hs

theorem Path.trans {u : σ} (h : S.Path D s t) (h' : S.Path D t u) : S.Path D s u := by
  induction h' with
  | refl => exact h
  | step _ hd hs ih => exact .step ih hd hs

/-- A run from a reachable state leads to one. -/
theorem Path.reach (h : S.Path D s t) (hs : S.Reach C s) (hDC : ∀ s e, D s e → C s e) : S.Reach C t := by
  induction h with
  | refl => exact hs
  | step _ hd hstep ih => exact .step ih (hDC _ _ hd) hstep

/-- **What every step keeps, the run keeps.** The step may use the invariant `I` of the run. -/
theorem Path.const {α : Type*} {g : σ → α} (hI : ∀ t, S.Path D s t → I t)
    (hstep : ∀ t e u, I t → g t = g s → D t e → S.step t e = some u → g u = g t)
    (h : S.Path D s t) : g t = g s := by
  induction h with
  | refl => rfl
  | step hp hd hs ih => exact (hstep _ _ _ (hI _ hp) ih hd hs).trans ih

/-- The state the labels lead to from `s`. -/
def run (S : System σ ε) : σ → List ε → Option σ
  | s, [] => some s
  | s, e :: es => (S.step s e).bind fun t => run S t es

/-- A run goes on where it has led to. -/
theorem run_append (es es' : List ε) : S.run s (es ++ es') = (S.run s es).bind fun t => S.run t es' := by
  induction es generalizing s with
  | nil => rfl
  | cons e es ih =>
    simp only [List.cons_append, run, Option.bind_assoc]
    exact congrArg _ (funext fun t => ih)

theorem run_trans {u : σ} {es es' : List ε} (h : S.run s es = some t) (h' : S.run t es' = some u) :
    S.run s (es ++ es') = some u := by
  rw [run_append, h]
  exact h'

theorem run_single {e : ε} (h : S.step s e = some t) : S.run s [e] = some t := by
  simp [run, h]

/-- **Following a run**: where each step of a run is followed by some steps of another, or by none, the whole
run is. The relation may look at the labels so far. -/
theorem run_follows {R : σ → List ε → σ → List ε → Prop} {P : ε → Prop}
    (hstep : ∀ s es s' es' e t, R s es s' es' → P e → S.step s e = some t →
      ∃ t' more, S.run s' more = some t' ∧ R t (es ++ [e]) t' (es' ++ more))
    {s' : σ} {before before' es : List ε} (h : R s before s' before') (hP : ∀ e ∈ es, P e)
    (hrun : S.run s es = some t) :
    ∃ t' more, S.run s' more = some t' ∧ R t (before ++ es) t' (before' ++ more) := by
  induction es generalizing s before s' before' with
  | nil =>
    obtain rfl := Option.some.inj hrun
    exact ⟨s', [], rfl, by simpa using h⟩
  | cons e es ih =>
    obtain ⟨u, hu, hrest⟩ := Option.bind_eq_some_iff.1 hrun
    obtain ⟨u', first, hfirst, hR⟩ := hstep s before s' before' e u h (hP e List.mem_cons_self) hu
    obtain ⟨t', more, hmore, hR'⟩ := ih hR (fun e he => hP e (List.mem_cons_of_mem _ he)) hrest
    exact ⟨t', first ++ more, run_trans hfirst hmore, by simpa using hR'⟩

/-- What labels lead to from a reachable state is reachable. -/
theorem Reachable.run {es : List ε} (hs : S.Reachable s) (h : S.run s es = some t) : S.Reachable t := by
  induction es generalizing s with
  | nil =>
    obtain rfl := Option.some.inj h
    exact hs
  | cons e es ih =>
    obtain ⟨u, hu, hrun⟩ := Option.bind_eq_some_iff.1 h
    exact ih (.step hs trivial hu) hrun

/-- How many steps of the run from `s` meet the test. -/
def count (S : System σ ε) (T : σ → ε → Bool) : σ → List ε → ℕ
  | _, [] => 0
  | s, e :: es => (T s e).toNat + ((S.step s e).map fun t => count S T t es).getD 0

/-- **Balance.** If each step moves a measure up by its tested steps of one kind and down by those of
another, so do whole runs. -/
theorem run_balance {T U : σ → ε → Bool} {m : σ → ℕ}
    (hstep : ∀ s e t, S.Reachable s → S.step s e = some t → m s + (T s e).toNat = m t + (U s e).toNat)
    {es : List ε} (hs : S.Reachable s) (h : S.run s es = some t) :
    m s + S.count T s es = m t + S.count U s es := by
  induction es generalizing s with
  | nil =>
    obtain rfl := Option.some.inj h
    rfl
  | cons e es ih =>
    obtain ⟨u, hu, hrun⟩ := Option.bind_eq_some_iff.1 h
    have hone := hstep s e u hs hu
    have hrest := ih (.step hs trivial hu) hrun
    simp only [count, hu, Option.map_some, Option.getD_some]
    omega

/-- Every step of the run from `s` meets `C`. -/
def AllSteps (S : System σ ε) (C : σ → ε → Prop) : σ → List ε → Prop
  | _, [] => True
  | s, e :: es => C s e ∧ ∀ t, S.step s e = some t → AllSteps S C t es

/-- **Exact conditions.** A step with a label in `A` keeps `Q` exactly if it meets `C`, and never brings it
back: then `Q` holds behind a run exactly if all its steps meet `C`. -/
theorem run_iff_allSteps {A : ε → Prop} {Q : σ → Prop}
    (hI : ∀ s e t, I s → A e → S.step s e = some t → I t)
    (hkeep : ∀ s e t, I s → Q s → A e → S.step s e = some t → (Q t ↔ C s e))
    (hback : ∀ s e t, I s → A e → S.step s e = some t → Q t → Q s)
    {es : List ε} (hA : ∀ e ∈ es, A e) (hs : I s) (hQ : Q s) (h : S.run s es = some t) :
    Q t ↔ S.AllSteps C s es := by
  -- `Q` is not brought back by the whole run either
  have hlost : ∀ (es : List ε) (s : σ), (∀ e ∈ es, A e) → I s → S.run s es = some t → Q t → Q s := by
    intro es
    induction es with
    | nil =>
      intro s _ _ h hQ
      exact Option.some.inj h ▸ hQ
    | cons e es ih =>
      intro s hA hs h hQ
      obtain ⟨u, hu, hrun⟩ := Option.bind_eq_some_iff.1 h
      have hAe := hA e List.mem_cons_self
      exact hback s e u hs hAe hu
        (ih u (fun e he => hA e (List.mem_cons_of_mem _ he)) (hI s e u hs hAe hu) hrun hQ)
  induction es generalizing s with
  | nil =>
    obtain rfl := Option.some.inj h
    exact iff_of_true hQ trivial
  | cons e es ih =>
    obtain ⟨u, hu, hrun⟩ := Option.bind_eq_some_iff.1 h
    have hAe := hA e List.mem_cons_self
    have hAes : ∀ e ∈ es, A e := fun e he => hA e (List.mem_cons_of_mem _ he)
    have hIu := hI s e u hs hAe hu
    have hone := hkeep s e u hs hQ hAe hu
    constructor
    · intro hQt
      have hQu := hlost es u hAes hIu hrun hQt
      refine ⟨hone.1 hQu, fun v hv => ?_⟩
      rw [hu] at hv
      exact Option.some.inj hv ▸ (ih hAes hIu hQu hrun).1 hQt
    · rintro ⟨hC, hrest⟩
      exact (ih hAes hIu (hone.2 hC) hrun).2 (hrest u hu)

/-- **Progress by a measure.** Where every state that satisfies `I` satisfies `Q`, or has a step to one that
does, or a step that keeps `I` and makes the measure smaller, such steps lead to `Q`. -/
theorem exists_path {Q : σ → Prop} (m : σ → ℕ)
    (hstep : ∀ s, I s → Q s ∨ ∃ e t, D s e ∧ S.step s e = some t ∧ (Q t ∨ I t ∧ m t < m s)) (hs : I s) :
    ∃ t, S.Path D s t ∧ Q t := by
  induction hm : m s using Nat.strongRecOn generalizing s with
  | ind n ih =>
    subst hm
    rcases hstep s hs with hq | ⟨e, t, hd, ht, hq | ⟨hi, hlt⟩⟩
    · exact ⟨s, .refl, hq⟩
    · exact ⟨t, .single hd ht, hq⟩
    · obtain ⟨u, hpath, hq⟩ := ih (m t) hlt hi rfl
      exact ⟨u, (Path.single hd ht).trans hpath, hq⟩

/-- Run the labels from `s`, testing `T` before every step and `P` at the end. -/
def passes (S : System σ ε) (T : σ → ε → Bool) (P : σ → Bool) : σ → List ε → Bool
  | s, [] => P s
  | s, e :: es => T s e && (S.step s e).any fun t => passes S T P t es

theorem Reach.passes {T : σ → ε → Bool} {P : σ → Bool} {es : List ε}
    (hC : ∀ s e t, T s e = true → S.step s e = some t → C s e) (hs : S.Reach C s)
    (h : S.passes T P s es = true) :
    ∃ t, S.Reach C t ∧ P t = true := by
  induction es generalizing s with
  | nil => exact ⟨s, hs, h⟩
  | cons e es ih =>
    simp only [System.passes, Bool.and_eq_true, Option.any_eq_true] at h
    obtain ⟨hc, u, hu, h⟩ := h
    exact ih (.step hs (hC s e u hc hu) hu) h

theorem Path.passes {T : σ → ε → Bool} {P : σ → Bool} {es : List ε}
    (hC : ∀ s e t, T s e = true → S.step s e = some t → C s e) (h : S.passes T P s es = true) :
    ∃ t, S.Path C s t ∧ P t = true := by
  induction es generalizing s with
  | nil => exact ⟨s, .refl, h⟩
  | cons e es ih =>
    simp only [System.passes, Bool.and_eq_true, Option.any_eq_true] at h
    obtain ⟨hc, u, hu, h⟩ := h
    obtain ⟨t, hpath, hP⟩ := ih h
    exact ⟨t, (Path.single (hC s e u hc hu) hu).trans hpath, hP⟩

/-- Labels that run through, passing a test that implies `C`. -/
theorem allSteps_of_passes {T : σ → ε → Bool} {P : σ → Bool} {es : List ε} (hC : ∀ s e, T s e = true → C s e)
    (h : S.passes T P s es = true) : S.AllSteps C s es ∧ ∃ t, S.run s es = some t ∧ P t = true := by
  induction es generalizing s with
  | nil => exact ⟨trivial, s, rfl, h⟩
  | cons e es ih =>
    simp only [System.passes, Bool.and_eq_true, Option.any_eq_true] at h
    obtain ⟨hT, u, hu, h⟩ := h
    obtain ⟨hall, t, ht, hP⟩ := ih h
    refine ⟨⟨hC s e hT, fun v hv => ?_⟩, t, ?_, hP⟩
    · rw [hu] at hv
      exact Option.some.inj hv ▸ hall
    · rw [System.run, hu]
      exact ht

/-- **Runs by evaluation.** Labels that run through, passing a test that implies `C` of the
steps that can be made, lead to a state of `Reach C`. -/
theorem exists_reach {T : σ → ε → Bool} {P : σ → Bool} (es : List ε)
    (hC : ∀ s e t, T s e = true → S.step s e = some t → C s e)
    (h : S.passes T P S.init es = true) :
    ∃ s, S.Reach C s ∧ P s = true := Reach.passes hC .init h

/-- Labels that run through lead to a reachable state. -/
theorem exists_reachable {P : σ → Bool} (es : List ε)
    (h : S.passes (fun _ _ => true) P S.init es = true) : ∃ s, S.Reachable s ∧ P s = true :=
  exists_reach es (fun _ _ _ _ _ => trivial) h

/-- Labels that run through, and more of them, with a test of the two states they lead to. -/
theorem exists_run {P : σ → σ → Bool} (es es' : List ε)
    (h : ((S.run S.init es).bind fun s => (S.run s es').map (P s)) = some true) :
    ∃ s t, S.Reachable s ∧ S.run s es' = some t ∧ P s t = true := by
  obtain ⟨s, hs, h⟩ := Option.bind_eq_some_iff.1 h
  obtain ⟨t, ht, hP⟩ := Option.map_eq_some_iff.1 h
  exact ⟨s, t, Reachable.run .init hs, ht, hP⟩

end System

end SocketAcl
