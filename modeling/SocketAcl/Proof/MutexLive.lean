import SocketAcl.Proof.MutexCode

/-!
# Who waits for the mutex gets it

* `returned_of_stuck`: where nothing but a pause can happen any more, all fibers have returned.
* `Ranked.weight`: every step but a pause makes it smaller, so no run goes on for ever.
-/

namespace SocketAcl

namespace MutexCode

variable {ι τ χ ω : Type} [DecidableEq ι] [DecidableEq τ] {S : Setting ι τ} {C : Client ι χ ω}
  {s s' : State ι τ χ ω} {f g : ι} {data : ω}

def Label.isPause : Label ι τ → Bool
  | .pause _ => true
  | _ => false

/-! ## Nobody is stuck -/

omit [DecidableEq ι] in
/-- An instruction that does not return yet waits for one of the locks. -/
theorem blocked_cases [DecidableEq ι] {i : Instr ι χ ω} (h : exec S s f i = none) :
    (∃ next, i = .lock next ∧ s.lock ≠ none) ∨ ∃ next, i = .lockThread next ∧ s.threadLock ≠ none := by
  cases i with
  | lock next =>
    simp only [exec] at h
    split at h
    · cases h
    · rename_i hheld
      exact .inl ⟨next, rfl, hheld⟩
  | lockThread next =>
    simp only [exec] at h
    split at h
    · cases h
    · rename_i hheld
      exact .inr ⟨next, rfl, hheld⟩
  | tryThread taken busy =>
    simp only [exec] at h
    split at h <;> cases h
  | _ => cases h

/-- Nothing can happen but a pause. -/
def Stuck (S : Setting ι τ) (C : Client ι χ ω) (s : State ι τ χ ω) : Prop :=
  ∀ e, e.isPause = false → step S C s e = none

variable [Fintype ι]

omit [DecidableEq τ] in
/-- Who has ended is nowhere. -/
theorem Inv.exited (h : Inv S C s) (hf : s.status f = .exiting) :
    (s.view C).cls f = ⟨false, false, false, none, false, .away⟩ := by
  obtain ⟨c, hc, hreturned⟩ := (h.resting f).exited hf
  simp [State.view, hc, Control.cls, C.returned c hreturned]

section Stuck

variable (h : Inv S C s) (hstuck : Stuck S C s)
include h hstuck

theorem Stuck.blocked (hf : s.status f = .running) : exec S s f (code S C f (s.control f)) = none := by
  have hrun := (h.safe.sched.running (S.tid f) f).2 ⟨rfl, hf⟩
  have hnone := hstuck (.run f) rfl
  have hrun : s.running (S.tid f) = some f := hrun
  simp only [step, hrun, if_true, Option.map_eq_none_iff] at hnone
  exact hnone

/-- Who holds `mutex->lock` goes on. -/
theorem Stuck.lock_free : s.lock = none := by
  by_contra hne
  obtain ⟨f, hf⟩ := Option.ne_none_iff_exists'.1 hne
  have hheld : ((s.view C).cls f).lock = true := (h.safe.lock f).2 hf
  have hrun : s.status f = .running := by
    by_contra hnot
    rw [(h.safe.rest f hnot).lock] at hheld
    cases hheld
  have hflow := flow (S := S) (f := f) (h.honest f)
  rcases blocked_cases (hstuck.blocked h hrun) with ⟨next, hi, -⟩ | ⟨next, hi, -⟩
  · rw [hi] at hflow
    rw [show ((s.view C).cls f).lock = false from hflow.1] at hheld
    cases hheld
  · rw [hi] at hflow
    rw [show ((s.view C).cls f).lock = false from hflow.1] at hheld
    cases hheld

/-- Who runs is a thread that waits for the mutex. -/
theorem Stuck.running_cases (hf : s.status f = .running) :
    S.hooked f = false ∧ ((s.view C).cls f).thread = false ∧ s.threadLock ≠ none := by
  have hflow := flow (S := S) (f := f) (h.honest f)
  rcases blocked_cases (hstuck.blocked h hf) with ⟨next, -, hheld⟩ | ⟨next, hi, hheld⟩
  · exact absurd (hstuck.lock_free h) hheld
  · rw [hi] at hflow
    exact ⟨not_hooked_of_lockThread (h.honest f) hi, hflow.2.1, hheld⟩

/-- Who is ready has its thread taken by a fiber that runs. -/
theorem Stuck.ready_cases (hf : s.status f = .ready) : ∃ g, s.status g = .running ∧ S.tid g = S.tid f := by
  have hnone := hstuck (.pick f) rfl
  simp only [step, hf, true_and] at hnone
  split at hnone
  · cases hnone
  · rename_i hbusy
    obtain ⟨g, hg⟩ := Option.ne_none_iff_exists'.1 hbusy
    obtain ⟨hth, hrun⟩ := (h.safe.sched.running (S.tid f) g).1 hg
    exact ⟨g, hrun, hth⟩

/-- Who is suspended sleeps for the mutex. -/
theorem Stuck.suspend_cases (hf : s.status f = .suspend) : ((s.view C).cls f).post = .waiting := by
  rcases (h.resting f).awake (by rw [hf]; nofun) with hawake | hpost
  · have hnone := hstuck (.awake f) rfl
    simp [step, hf, hawake] at hnone
  · exact hpost

/-- Nobody holds the mutex. -/
theorem Stuck.threadLock_free : s.threadLock = none := by
  by_contra hne
  obtain ⟨f, hf⟩ := Option.ne_none_iff_exists'.1 hne
  have hheld : ((s.view C).cls f).thread = true := (h.safe.thread f).2 hf
  cases hst : s.status f with
  | none => exact h.safe.sched.status f hst
  | running =>
    rw [(hstuck.running_cases h hst).2.1] at hheld
    cases hheld
  | ready =>
    -- its thread would be one without fibers
    obtain ⟨g, hg, hth⟩ := hstuck.ready_cases h hst
    obtain rfl := S.alone g f (hstuck.running_cases h hg).1 hth
    rw [hg] at hst
    cases hst
  | suspend =>
    have hpost := hstuck.suspend_cases h hst
    rw [((h.safe.wf f).asleep hpost).1] at hheld
    cases hheld
  | exiting =>
    rw [h.exited hst] at hheld
    cases hheld

/-- Nobody runs, and nobody is ready. -/
theorem Stuck.not_running : s.status f ≠ .running := fun hf =>
  (hstuck.running_cases h hf).2.2 (hstuck.threadLock_free h)

theorem Stuck.rest_cases : s.status f = .suspend ∨ s.status f = .exiting := by
  cases hst : s.status f with
  | none => exact absurd hst (h.safe.sched.status f)
  | running => exact absurd hst (hstuck.not_running h)
  | ready =>
    obtain ⟨g, hg, -⟩ := hstuck.ready_cases h hst
    exact absurd hg (hstuck.not_running h)
  | suspend => exact .inl rfl
  | exiting => exact .inr rfl

/-- Who sleeps is in the array: nobody is about to wake it. -/
theorem Stuck.mem_waiters (hf : s.status f = .suspend) : f ∈ s.waiters := by
  have hpost := hstuck.suspend_cases h hf
  have hreg : registered ((s.view C).cls f).post ((s.view C).status f) = true := by
    rw [hpost]
    exact beq_iff_eq.2 hf
  rcases h.safe.mail.somewhere hreg with hw | ⟨g, hg⟩ | hbox
  · exact hw
  · rcases hstuck.rest_cases h (f := g) with hst | hst
    · rw [((h.safe.wf g).asleep (hstuck.suspend_cases h hst)).2] at hg
      cases hg
    · rw [h.exited hst] at hg
      cases hg
  · have hnone := hstuck (.deliver (S.tid f)) rfl
    have hidle : s.running (S.tid f) = none := by
      by_contra hne
      obtain ⟨g, hg⟩ := Option.ne_none_iff_exists'.1 hne
      exact hstuck.not_running h ((h.safe.sched.running _ g).1 hg).2
    have hbox : f ∈ s.box (S.tid f) := hbox
    cases hb : s.box (S.tid f) with
    | nil =>
      rw [hb] at hbox
      cases hbox
    | cons x rest =>
      simp only [step, hidle, hb] at hnone
      split at hnone <;> cases hnone

/-- **Nobody is stuck**: where nothing but a pause can happen any more, all fibers have returned. -/
theorem returned_of_stuck (f : ι) : ∃ c, s.control f = .user c ∧ C.action c = .returned := by
  rcases hstuck.rest_cases h (f := f) with hst | hst
  · -- the mutex is free and somebody is in the array: then somebody comes, but all sleep in the array
    have hw := hstuck.mem_waiters h hst
    obtain ⟨g, hcoming⟩ := h.safe.woken (hstuck.threadLock_free h) (List.ne_nil_of_mem hw)
    rcases hstuck.rest_cases h (f := g) with hg | hg
    · have hpost := hstuck.suspend_cases h hg
      rcases hcoming with hc | ⟨pos, hc⟩ | ⟨-, hc⟩
      · rw [hpost] at hc
        cases hc
      · rw [hpost] at hc
        cases hc
      · exact absurd (hstuck.mem_waiters h hg) hc
    · rw [h.exited hg] at hcoming
      rcases hcoming with hc | ⟨pos, hc⟩ | ⟨hc | hc, -⟩ <;> cases hc
  · exact (h.resting f).exited hst

end Stuck

/-! ## No run goes on for ever -/

/-- **Programs that end**: each step of a fiber brings it closer to its end. -/
structure Ranked (C : Client ι χ ω) where
  rank : χ → ℕ
  lock : ∀ c n, C.action c = .lock n → rank n < rank c
  unlock : ∀ c n, C.action c = .unlock n → rank n < rank c
  work : ∀ c next, C.action c = .work next → ∀ data, rank (next data).1 < rank c

/-- The steps a call has still to make; more if it will be woken and try again. -/
def LockPc.weight (mem : Bool) : LockPc → ℕ
  | .delay => 56
  | .delayed => 52
  | .tryEarly _ | .enter _ => 48
  | .enterLate _ | .tryFirst _ => 44
  | .append _ | .threadRelease => 40
  | .trySecond _ _ => 36 + if mem then 0 else 36
  | .release _ => 32 + if mem then 0 else 36
  | .switch _ => 28 + if mem then 0 else 36
  | .waiting _ => 24 + if mem then 0 else 36
  | .addEnter => 36
  | .add => 32
  | .delete _ | .addRelease => 28
  | .taken | .block => 24
  | .owner => 20
  | .removeEnter => 16
  | .remove => 12
  | .removeRelease => 8
  | .fiber => 4

def UnlockPc.weight : UnlockPc ι → ℕ
  | .enter => 68
  | .pop => 64
  | .check _ => 24
  | .owner _ => 20
  | .fiber _ => 16
  | .releaseThread _ => 12
  | .release _ => 8
  | .wake _ => 4

def statusWeight : FiberStatus → ℕ
  | .suspend => 3
  | .ready => 2
  | .running => 1
  | .exiting | .none => 0

def Ranked.weight (R : Ranked C) (mem : Bool) : Control ι χ → ℕ
  | .user c => 128 * R.rank c
  | .locking _ n pc => 128 * R.rank n + pc.weight mem
  | .unlocking _ n pc => 128 * R.rank n + pc.weight

/-- **How far the fibers have still to go.** -/
def Ranked.measure (R : Ranked C) (s : State ι τ χ ω) : ℕ :=
  ∑ f, (R.weight (decide (f ∈ s.waiters)) (s.control f) + statusWeight (s.status f))

/-- What an instruction makes of a weight. -/
def Descends (R : Ranked C) (mem : Bool) (weight : ℕ) : Instr ι χ ω → Prop
  | .lock next | .unlock next | .lockThread next | .unlockThread next | .check next | .setOwner _ next
  | .setFiber _ next | .addThread next | .removeThread next | .ready _ next | .send _ next | .jump next =>
    R.weight mem next < weight
  | .tryThread taken busy => R.weight mem taken < weight ∧ R.weight mem busy < weight
  | .append next => ∀ pos, R.weight true (next pos) < weight
  | .delete _ next => ∀ mem, R.weight mem next < weight
  | .popFront next => ∀ popped mem, R.weight mem (next popped) + 36 < weight
  | .suspend next => R.weight mem next + 2 < weight
  | .work next => ∀ data, 128 * R.rank (next data).1 < weight
  | .exit => True

omit [DecidableEq ι] [Fintype ι] in
theorem descends (R : Ranked C) {k : Control ι χ} (mem : Bool) (hk : k.Honest S C f)
    (hmem : (k.cls C.inside).post = .waiting → mem = false) :
    Descends R mem (R.weight mem k) (code S C f k) := by
  have hloop : ∀ w mem, (S.loop w).weight mem = 48 := by
    intro w mem
    unfold Setting.loop
    split <;> rfl
  cases k with
  | user c =>
    simp only [code]
    split
    · rename_i n h
      have hlt := R.lock c n h
      simp only [Descends, Ranked.weight, hloop]
      omega
    · rename_i n h
      have hlt := R.unlock c n h
      simp only [Descends, Ranked.weight, UnlockPc.weight]
      omega
    · rename_i next h
      intro data
      have hlt := R.work c next h data
      simp only [Ranked.weight]
      omega
    · trivial
  | locking c n pc =>
    cases pc with
    | waiting w =>
      obtain rfl := hmem rfl
      simp only [code, lockCode, Descends, Ranked.weight]
      split
      · simp [LockPc.weight]
      · rw [hloop]
        simp [LockPc.weight]
    | delayed =>
      simp only [code, lockCode, Descends, Ranked.weight, hloop]
      simp [LockPc.weight]
    | tryEarly w | tryFirst w | owner =>
      cases hf : S.hooked f <;> simp [code, lockCode, Descends, Ranked.weight, LockPc.weight, hf]
    | trySecond w pos | release w | switch w =>
      cases mem <;> simp [code, lockCode, Descends, Ranked.weight, LockPc.weight]
    | _ => simp [code, lockCode, Descends, Ranked.weight, LockPc.weight]
  | unlocking c n pc =>
    cases pc with
    | release popped => cases popped <;> simp [code, unlockCode, Descends, Ranked.weight, UnlockPc.weight]
    | wake g =>
      simp only [code, unlockCode]
      split <;> simp [Descends, Ranked.weight, UnlockPc.weight]
    | _ => simp [code, unlockCode, Descends, Ranked.weight, UnlockPc.weight]

omit [Fintype ι] [DecidableEq ι] [DecidableEq τ] in
theorem weight_le (R : Ranked C) (k : Control ι χ) (mem mem' : Bool) : R.weight mem k ≤ R.weight mem' k + 36 := by
  cases k with
  | locking c n pc => cases pc <;> cases mem <;> cases mem' <;> simp [Ranked.weight, LockPc.weight]
  | _ => exact Nat.le_add_right _ _

section Measure

variable (R : Ranked C)

omit [DecidableEq τ] in
/-- One fiber goes down by more than `b`, and `o`, if it is one, up by `b` at most. -/
theorem measure_lt {o : Option ι} {b : ℕ}
    (hf : R.weight (decide (f ∈ s'.waiters)) (s'.control f) + statusWeight (s'.status f) + b <
      R.weight (decide (f ∈ s.waiters)) (s.control f) + statusWeight (s.status f))
    (hother : ∀ g, g ≠ f → R.weight (decide (g ∈ s'.waiters)) (s'.control g) + statusWeight (s'.status g) ≤
      R.weight (decide (g ∈ s.waiters)) (s.control g) + statusWeight (s.status g) + if o = some g then b else 0) :
    R.measure s' < R.measure s := by
  have hpoint : ∀ g, R.weight (decide (g ∈ s'.waiters)) (s'.control g) + statusWeight (s'.status g) +
      (if g = f then b + 1 else 0) ≤
      R.weight (decide (g ∈ s.waiters)) (s.control g) + statusWeight (s.status g) + if o = some g then b else 0 := by
    intro g
    by_cases hgf : g = f
    · subst hgf
      rw [if_pos rfl]
      omega
    · rw [if_neg hgf]
      exact hother g hgf
  have hsum := Finset.sum_le_sum fun g (_ : g ∈ Finset.univ) => hpoint g
  have hone : (∑ g : ι, if o = some g then b else 0) ≤ b := by
    cases o with
    | none => simp
    | some x => simp [Finset.sum_ite_eq]
  rw [Finset.sum_add_distrib, Finset.sum_ite_eq' Finset.univ f fun _ => b + 1, if_pos (Finset.mem_univ f),
    Finset.sum_add_distrib (f := fun g => R.weight (decide (g ∈ s.waiters)) (s.control g) + statusWeight (s.status g))]
    at hsum
  unfold Ranked.measure
  omega

omit [DecidableEq τ] in
/-- A fiber goes on, and no other is farther from running. -/
theorem measure_goto {k : Control ι χ}
    (hk : R.weight (decide (f ∈ s.waiters)) k + statusWeight (s'.status f) <
      R.weight (decide (f ∈ s.waiters)) (s.control f) + statusWeight (s.status f))
    (hcontrol : s'.control = Function.update s.control f k) (hwaiters : s'.waiters = s.waiters)
    (hstatus : ∀ g, g ≠ f → statusWeight (s'.status g) ≤ statusWeight (s.status g)) : R.measure s' < R.measure s := by
  refine measure_lt R (f := f) (o := none) (b := 0) ?_ fun g hgf => ?_
  · rw [hcontrol, hwaiters, Function.update_self]
    omega
  · rw [hcontrol, hwaiters, Function.update_of_ne hgf]
    have hle := hstatus g hgf
    omega

theorem exec_measure (h : Inv S C s) (hf : s.status f = .running)
    (hs : exec S s f (code S C f (s.control f)) = some s') : R.measure s' < R.measure s := by
  have hflow := flow (S := S) (f := f) (h.honest f)
  have hdown := descends (S := S) R (decide (f ∈ s.waiters)) (h.honest f) fun hpost => by
    refine decide_eq_false (h.safe.mail.not_pending ?_).1
    have hst : (s.view C).status f = .running := hf
    rw [show ((s.view C).cls f).post = .waiting from hpost, hst]
    rfl
  generalize code S C f (s.control f) = i at hs hflow hdown
  have hle : ∀ {t : State ι τ χ ω}, t.status = s.status → ∀ g, g ≠ f → statusWeight (t.status g) ≤ statusWeight (s.status g) :=
    fun ht g _ => le_of_eq (by rw [ht])
  cases i with
  | lock next | lockThread next =>
    simp only [exec] at hs
    split at hs
    · obtain rfl := Option.some.inj hs
      exact measure_goto R (Nat.add_lt_add_right hdown _) rfl rfl (hle rfl)
    · cases hs
  | tryThread taken busy =>
    simp only [exec] at hs
    split at hs
    · obtain rfl := Option.some.inj hs
      exact measure_goto R (Nat.add_lt_add_right hdown.1 _) rfl rfl (hle rfl)
    · obtain rfl := Option.some.inj hs
      exact measure_goto R (Nat.add_lt_add_right hdown.2 _) rfl rfl (hle rfl)
  | unlock next | unlockThread next | check next | setOwner _ next | setFiber _ next | addThread next
  | removeThread next | send _ next | jump next =>
    obtain rfl := Option.some.inj hs
    exact measure_goto R (Nat.add_lt_add_right hdown _) rfl rfl (hle rfl)
  | work next =>
    obtain rfl := Option.some.inj hs
    exact measure_goto R (k := .user (next s.data).1) (Nat.add_lt_add_right (hdown s.data) _) rfl rfl (hle rfl)
  | append next =>
    have hs' := Option.some.inj hs
    have hcontrol : s'.control = Function.update s.control f (next s.waiters.length) := by rw [← hs']; rfl
    have hwaiters : s'.waiters = s.waiters ++ [f] := by rw [← hs']
    have hstatus : s'.status = s.status := by rw [← hs']; rfl
    refine measure_lt R (f := f) (o := none) (b := 0) ?_ fun g hgf => ?_
    · have hmem : decide (f ∈ s.waiters ++ [f]) = true := by simp
      rw [hcontrol, hwaiters, hstatus, Function.update_self, hmem]
      exact Nat.add_lt_add_right (hdown _) _
    · rw [hcontrol, hwaiters, hstatus, Function.update_of_ne hgf]
      simp [hgf]
  | delete pos next =>
    have hs' := Option.some.inj hs
    obtain ⟨-, -, -, hpost, -⟩ := hflow
    obtain ⟨l, hl, hpos⟩ := h.safe.mail.last f pos (.inr hpost)
    have hl : s.waiters = l ++ [f] := hl
    have hcontrol : s'.control = Function.update s.control f next := by rw [← hs']; rfl
    have hwaiters : s'.waiters = l := by rw [← hs', hl, hpos, arrayDelete_last]
    have hstatus : s'.status = s.status := by rw [← hs']; rfl
    refine measure_lt R (f := f) (o := none) (b := 0) ?_ fun g hgf => ?_
    · rw [hcontrol, hwaiters, hstatus, Function.update_self]
      exact Nat.add_lt_add_right (hdown _) _
    · rw [hcontrol, hwaiters, hstatus, Function.update_of_ne hgf, hl]
      simp [hgf]
  | popFront next =>
    have hs' := Option.some.inj hs
    have hcontrol : s'.control = Function.update s.control f (next s.waiters.head?) := by rw [← hs']; rfl
    have hwaiters : s'.waiters = arrayDelete s.waiters 0 := by rw [← hs']
    have hstatus : s'.status = s.status := by rw [← hs']; rfl
    refine measure_lt R (f := f) (o := s.waiters.head?) (b := 36) ?_ fun g hgf => ?_
    · rw [hcontrol, hwaiters, hstatus, Function.update_self]
      have hlt := hdown s.waiters.head? (decide (f ∈ arrayDelete s.waiters 0))
      omega
    · rw [hcontrol, hwaiters, hstatus, Function.update_of_ne hgf]
      split
      · have hle := weight_le R (s.control g) (decide (g ∈ arrayDelete s.waiters 0)) (decide (g ∈ s.waiters))
        omega
      · rename_i hhead
        have hsame : decide (g ∈ arrayDelete s.waiters 0) = decide (g ∈ s.waiters) := by
          refine decide_eq_decide.2 ?_
          cases hw : s.waiters with
          | nil => rfl
          | cons x l =>
            rw [(arrayDelete_zero x l).mem_iff, List.mem_cons]
            refine ⟨.inr, fun hg => hg.resolve_left fun hgx => hhead ?_⟩
            rw [hw, hgx]
            rfl
        rw [hsame]
        exact Nat.le_add_right _ _
  | suspend next =>
    have hs' := Option.some.inj hs
    have hcontrol : s'.control = Function.update s.control f next := by rw [← hs']; rfl
    have hwaiters : s'.waiters = s.waiters := by rw [← hs']; rfl
    have hstatus : s'.status = Function.update s.status f .suspend := by rw [← hs']; rfl
    refine measure_goto R ?_ hcontrol hwaiters fun g hgf => ?_
    · rw [hstatus, Function.update_self, hf]
      exact Nat.add_lt_add_right (k := 1) hdown
    · rw [hstatus, Function.update_of_ne hgf]
  | ready g next =>
    obtain ⟨hpending, hpost, hlock, hth, ha⟩ := hflow
    obtain ⟨hst, -⟩ := h.safe.wake hf (wf _ next) hpending hth hpost ha
    have hst : s.status g = .suspend := hst
    have hgf : g ≠ f := by
      rintro rfl
      rw [hf] at hst
      cases hst
    simp only [exec, hst, reduceCtorEq, if_false] at hs
    have hs' := Option.some.inj hs
    have hcontrol : s'.control = Function.update s.control f next := by rw [← hs']; rfl
    have hwaiters : s'.waiters = s.waiters := by rw [← hs']; rfl
    have hstatus : s'.status = Function.update s.status g .ready := by rw [← hs']; rfl
    refine measure_goto R ?_ hcontrol hwaiters fun x _ => ?_
    · rw [hstatus, Function.update_of_ne (Ne.symm hgf)]
      exact Nat.add_lt_add_right hdown _
    · rw [hstatus]
      by_cases hxg : x = g
      · rw [hxg, Function.update_self, hst]
        decide
      · rw [Function.update_of_ne hxg]
  | exit =>
    have hs' := Option.some.inj hs
    have hcontrol : s'.control = Function.update s.control f (s.control f) := by
      rw [← hs', Function.update_eq_self]
      rfl
    have hwaiters : s'.waiters = s.waiters := by rw [← hs']; rfl
    have hstatus : s'.status = Function.update s.status f .exiting := by rw [← hs']; rfl
    refine measure_goto R ?_ hcontrol hwaiters fun g hgf => ?_
    · rw [hstatus, Function.update_self, hf]
      exact Nat.lt_succ_self _
    · rw [hstatus, Function.update_of_ne hgf]

omit [DecidableEq τ] in
/-- Only the status of a fiber changes. -/
theorem measure_restatus (st : FiberStatus) (n : ℕ) (hst : statusWeight st + 1 ≤ statusWeight (s.status f) + n)
    (hcontrol : s'.control = s.control) (hwaiters : s'.waiters = s.waiters)
    (hstatus : s'.status = Function.update s.status f st) : R.measure s' + 1 ≤ R.measure s + n := by
  have hsum := sum_update_add statusWeight s.status f st
  unfold Ranked.measure
  rw [hcontrol, hwaiters, hstatus, Finset.sum_add_distrib, Finset.sum_add_distrib]
  omega

/-- **Every step but a pause** makes the measure smaller. -/
theorem step_measure {e : Label ι τ} (h : Inv S C s) (hs : step S C s e = some (some s')) :
    R.measure s' + 1 ≤ R.measure s + if e.isPause then 3 else 0 := by
  cases e with
  | run f =>
    simp only [step] at hs
    split at hs
    · rename_i hrun
      obtain ⟨t, ht, heq⟩ := Option.map_eq_some_iff.1 hs
      obtain rfl := Option.some.inj heq
      exact exec_measure R h ((h.safe.sched.running _ f).1 hrun).2 ht
    · cases hs
  | pause f =>
    simp only [step] at hs
    split at hs
    · rename_i hp
      obtain rfl := Option.some.inj (Option.some.inj hs)
      have hf : s.status f = .running := ((h.safe.sched.running _ f).1 hp.1).2
      exact measure_restatus R (f := f) .suspend 3 (by rw [hf]; decide) rfl rfl rfl
    · cases hs
  | awake f =>
    simp only [step] at hs
    split at hs
    · rename_i hp
      obtain rfl := Option.some.inj (Option.some.inj hs)
      exact measure_restatus R (f := f) .ready 0 (by rw [hp.1]; decide) rfl rfl rfl
    · cases hs
  | pick f =>
    simp only [step] at hs
    split at hs
    · rename_i hp
      obtain rfl := Option.some.inj (Option.some.inj hs)
      exact measure_restatus R (f := f) .running 0 (by rw [hp.1]; decide) rfl rfl rfl
    · cases hs
  | deliver th =>
    simp only [step] at hs
    split at hs
    · rename_i f rest hidle hbox
      split at hs
      · rename_i hst
        obtain rfl := Option.some.inj (Option.some.inj hs)
        exact measure_restatus R (f := f) .ready 0 (by rw [hst]; decide) rfl rfl rfl
      · cases hs
    · cases hs

theorem run_measure {es : List (Label ι τ)} {st : Option (State ι τ χ ω)} (h : Inv S C s)
    (hs : (mutexCode S C data).run (some s) es = some st) :
    ∃ s', st = some s' ∧ es.length + R.measure s' ≤ R.measure s + 3 * es.countP Label.isPause := by
  induction es generalizing s with
  | nil =>
    obtain rfl := Option.some.inj hs
    exact ⟨s, rfl, by simp⟩
  | cons e es ih =>
    obtain ⟨r, hr, hrun⟩ := Option.bind_eq_some_iff.1 hs
    obtain ⟨t, rfl, ht, -⟩ := step_inv h hr
    obtain ⟨s', rfl, hle⟩ := ih ht hrun
    refine ⟨s', rfl, ?_⟩
    have hone := step_measure R h hr
    simp only [List.length_cons, List.countP_cons]
    split at hone <;> rename_i hpause <;> simp only [hpause] <;> simp <;> omega

end Measure

/-- **Who waits for the mutex gets it.** For programs that end: a run is no longer than they and its pauses are, and
where nothing but a pause can happen any more, all fibers have returned. So nobody waits for ever, and no wake-up is
lost. -/
theorem mutex_live (R : Ranked C) {es : List (Label ι τ)} {st : Option (State ι τ χ ω)}
    (hs : (mutexCode S C data).run (mutexCode S C data).init es = some st) :
    ∃ s, st = some s ∧
      es.length ≤ (∑ f, (128 * R.rank (C.start f) + 2)) + 3 * es.countP Label.isPause ∧
      (Stuck S C s → ∀ f, ∃ c, s.control f = .user c ∧ C.action c = .returned) := by
  obtain ⟨s, rfl, hle⟩ := run_measure R inv_initial hs
  obtain ⟨_, heq, hinv, -⟩ := inv_reachable (System.Reachable.run .init hs)
  obtain rfl := Option.some.inj heq
  refine ⟨s, rfl, ?_, fun hstuck => returned_of_stuck hinv hstuck⟩
  have hinitial : R.measure (State.initial (τ := τ) C data) = ∑ f, (128 * R.rank (C.start f) + 2) := rfl
  rw [← hinitial]
  omega

def once_ranked : Ranked once where
  rank
    | .start => 3
    | .count => 2
    | .leave => 1
    | .returned => 0
  lock c n h := by
    cases c <;> cases h
    exact Nat.lt_succ_self 2
  unlock c n h := by
    cases c <;> cases h
    exact Nat.lt_succ_self 0
  work c next h data := by
    cases c <;> cases h
    exact Nat.lt_succ_self 1

/-- The first unlocks, and the second is woken, counts too and ends. -/
def handedOver {ι τ : Type} (first second : ι) (th : τ) : List (Label ι τ) :=
  contended first second ++ List.replicate 10 (.run first) ++ [.deliver th, .pick second] ++
    List.replicate 16 (.run second)

/-- The test that nothing but a pause can happen. -/
def ended [Fintype τ] (S : Setting ι τ) (C : Client ι χ ω) (s : State ι τ χ ω) : Bool :=
  decide ((∀ f, ∀ e ∈ [Label.run f, .awake f, .pick f], (step S C s e).isNone = true) ∧
    ∀ th, (step S C s (.deliver th)).isNone = true)

theorem stuck_of_ended [Fintype τ] (h : ended S C s = true) : Stuck S C s := by
  simp only [ended, decide_eq_true_eq, List.forall_mem_cons, List.not_mem_nil, false_imp_iff, implies_true, and_true,
    Option.isNone_iff_eq_none] at h
  obtain ⟨hfibers, hboxes⟩ := h
  intro e he
  cases e with
  | run f => exact (hfibers f).1
  | pause f => cases he
  | awake f => exact (hfibers f).2.1
  | pick f => exact (hfibers f).2.2
  | deliver th => exact hboxes th

theorem mutex_live_handedOver : ∃ s : State (Fin 2) (Fin 2) Once ℕ,
    s.data = 2 ∧ ∀ f, ∃ c, s.control f = .user c ∧ once.action c = .returned := by
  obtain ⟨st, hrun, hst⟩ : ∃ st, (mutexCode apart once 0).run (mutexCode apart once 0).init (handedOver 0 1 1) = some st ∧
      (st.any fun s => s.data == 2 && ended apart once s) = true :=
    (Option.any_eq_true _ _).1 (by decide +kernel)
  obtain ⟨s, rfl, -, hreturned⟩ := mutex_live once_ranked hrun
  simp only [Option.any_some, Bool.and_eq_true, beq_iff_eq] at hst
  exact ⟨s, hst.1, hreturned (stuck_of_ended hst.2)⟩

end MutexCode

end SocketAcl
