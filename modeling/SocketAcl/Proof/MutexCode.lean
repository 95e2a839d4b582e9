import SocketAcl.Proof.MutexHandover

/-!
# The mutex of fibers and threads is a mutex

* `exec_inv`: what an instruction of the code does, by its kind.
* `mutex_refines`: to the programs that use it, the mutex is one that is taken and given back at once.
-/

namespace SocketAcl

namespace MutexCode

variable {ι τ χ ω : Type} [DecidableEq ι] [DecidableEq τ] [Fintype ι] {S : Setting ι τ} {C : Client ι χ ω}
  {s s' : State ι τ χ ω} {f g : ι} {k : Control ι χ} {data : ω}

def State.view (C : Client ι χ ω) (s : State ι τ χ ω) : View ι τ :=
  ⟨fun f => (s.control f).cls C.inside, s.lock, s.threadLock, s.fiber, s.waiters, s.box, s.running, s.status,
    s.complained⟩

/-- What the programs see. -/
def State.atomic (s : State ι τ χ ω) : Atomic ι χ ω := ⟨s.data, s.threadLock, fun f => (s.control f).client⟩

/-- A fiber that does not run sleeps for a while, or for the mutex; one that has ended has returned. -/
structure Resting (C : Client ι χ ω) (k : Control ι χ) (status : FiberStatus) : Prop where
  awake : status ≠ .running → k.mayAwake = true ∨ (k.cls C.inside).post = .waiting
  exited : status = .exiting → ∃ c, k = .user c ∧ C.action c = .returned

/-- **The invariant of the code.** -/
structure Inv (S : Setting ι τ) (C : Client ι χ ω) (s : State ι τ χ ω) : Prop where
  safe : Safe S (s.view C)
  honest : ∀ f, (s.control f).Honest S C f
  resting : ∀ f, Resting C (s.control f) (s.status f)

omit [DecidableEq τ] [Fintype ι] in
theorem cls_goto : (fun g => (Function.update s.control f k g).cls C.inside) =
    Function.update (s.view C).cls f (k.cls C.inside) := by
  funext g
  by_cases hgf : g = f
  · rw [hgf, Function.update_self, Function.update_self]
  · rw [Function.update_of_ne hgf, Function.update_of_ne hgf]
    rfl

omit [DecidableEq τ] [Fintype ι] in
theorem client_goto : (fun g => (Function.update s.control f k g).client) =
    Function.update (fun g => (s.control g).client) f k.client := by
  funext g
  by_cases hgf : g = f
  · rw [hgf, Function.update_self, Function.update_self]
  · rw [Function.update_of_ne hgf, Function.update_of_ne hgf]

omit [DecidableEq ι] [Fintype ι] [DecidableEq τ] in
theorem Resting.running : Resting C k .running := ⟨fun h => absurd rfl h, nofun⟩

omit [DecidableEq τ] [Fintype ι] in
theorem resting_update {status : ι → FiberStatus} (h : ∀ g, g ≠ f → Resting C (s.control g) (status g))
    (hf : Resting C k (status f)) (g : ι) : Resting C (Function.update s.control f k g) (status g) := by
  by_cases hgf : g = f
  · rw [hgf, Function.update_self]
    exact hf
  · rw [Function.update_of_ne hgf]
    exact h g hgf

omit [DecidableEq τ] [Fintype ι] in
theorem honest_update (h : ∀ g, (s.control g).Honest S C g) (hk : k.Honest S C f) (g : ι) :
    (Function.update s.control f k g).Honest S C g := by
  by_cases hgf : g = f
  · rw [hgf, Function.update_self]
    exact hk
  · rw [Function.update_of_ne hgf]
    exact h g

omit [DecidableEq τ] in
/-- A fiber that runs comes to another point. -/
theorem Inv.moved (h : Inv S C s) (hf : s.status f = .running) (hk : k.Honest S C f)
    (hcontrol : s'.control = Function.update s.control f k) (hstatus : s'.status = s.status)
    (hsafe : Safe S { s'.view C with cls := Function.update (s.view C).cls f (k.cls C.inside) }) : Inv S C s' := by
  refine ⟨?_, fun g => ?_, fun g => ?_⟩
  · rw [← cls_goto, ← hcontrol] at hsafe
    exact hsafe
  · rw [hcontrol]
    exact honest_update h.honest hk g
  · rw [hcontrol, hstatus]
    exact resting_update (fun g _ => h.resting g) (by rw [hf]; exact .running) g

omit [DecidableEq τ] [Fintype ι] in
/-- The programs do not see that. -/
theorem atomic_moved (hk : k.client = (s.control f).client) (hcontrol : s'.control = Function.update s.control f k)
    (hdata : s'.data = s.data) (hthread : s'.threadLock = s.threadLock) : s'.atomic = s.atomic := by
  simp only [State.atomic, hcontrol, hdata, hthread, client_goto, hk, Function.update_eq_self]

/-- **What an instruction of the code does.** -/
theorem exec_inv (h : Inv S C s) (hf : s.status f = .running)
    (hs : exec S s f (code S C f (s.control f)) = some s') :
    Inv S C s' ∧ (s'.atomic = s.atomic ∨ Atomic.step C s.atomic f = some s'.atomic) := by
  have hflow := flow (S := S) (f := f) (h.honest f)
  have hmeaning := meaning (S := S) (f := f) (h.honest f)
  have hhonest := MutexCode.honest (S := S) (f := f) (h.honest f)
  have hwf := fun k : Control ι χ => wf C.inside k
  generalize hi : code S C f (s.control f) = i at hs hflow hmeaning hhonest
  cases i with
  | lock next =>
    obtain ⟨hold, ha⟩ := hflow
    simp only [exec] at hs
    split at hs
    · rename_i hfree
      obtain rfl := Option.some.inj hs
      exact ⟨h.moved hf hhonest rfl rfl (h.safe.takeLock hf (hwf _) hfree ha), .inl (atomic_moved hmeaning rfl rfl rfl)⟩
    · cases hs
  | unlock next =>
    obtain ⟨hold, hemptied, ha⟩ := hflow
    obtain rfl := Option.some.inj hs
    exact ⟨h.moved hf hhonest rfl rfl (h.safe.giveLock hf (hwf _) hold ha), .inl (atomic_moved hmeaning rfl rfl rfl)⟩
  | tryThread taken busy =>
    obtain ⟨hold, howns, hpending, hemptied, hposts⟩ := hflow
    obtain ⟨haction, hbusy⟩ := hmeaning
    simp only [exec] at hs
    split at hs
    · rename_i hfree
      obtain rfl := Option.some.inj hs
      refine ⟨h.moved hf hhonest.1 rfl rfl (h.safe.takeThread hf (hwf _) hfree ?_), .inr ?_⟩
      · rcases hposts with ⟨pos, hp, ha, -⟩ | ⟨hp, ha, -⟩
        · exact .inl ⟨pos, hp, ha⟩
        · exact .inr ⟨.inl hp, ha⟩
      · simp only [Atomic.step, State.atomic, haction, hfree, if_true, State.goto, client_goto]
    · rename_i hheld
      obtain rfl := Option.some.inj hs
      refine ⟨h.moved hf hhonest.2 rfl rfl ?_, .inl (atomic_moved hbusy rfl rfl rfl)⟩
      rcases hposts with ⟨pos, hp, -, ha⟩ | ⟨hp, -, ha | ha⟩
      · exact h.safe.turn hf (hwf _) (.inl ⟨pos, hp, rfl⟩) (fun hfree => absurd hfree hheld) ha
      · exact h.safe.same ha
      · exact h.safe.turn hf (hwf _) (.inr (.inl ⟨hp, rfl⟩)) (fun hfree => absurd hfree hheld) ha
  | lockThread next =>
    obtain ⟨-, hold, howns, hpost, ha⟩ := hflow
    simp only [exec] at hs
    split at hs
    · rename_i hfree
      obtain rfl := Option.some.inj hs
      have ha' : next.cls C.inside = { (s.view C).cls f with thread := true, post := .away } := by
        rw [ha, ← hpost]
        rfl
      refine ⟨h.moved hf hhonest rfl rfl (h.safe.takeThread hf (hwf _) hfree (.inr ⟨.inr hpost, ha'⟩)), .inr ?_⟩
      simp only [Meaning] at hmeaning
      simp only [Atomic.step, State.atomic, hmeaning, hfree, if_true, State.goto, client_goto]
    · cases hs
  | unlockThread next =>
    obtain ⟨hold, howns, hlock, hpost, hnone, ha⟩ := hflow
    obtain rfl := Option.some.inj hs
    refine ⟨h.moved hf hhonest rfl rfl (h.safe.giveThread hf (hwf _) hold hnone ha), .inr ?_⟩
    simp only [Meaning] at hmeaning
    simp only [Atomic.step, State.atomic, hmeaning, State.goto, client_goto]
  | append next =>
    obtain ⟨hlock, hemptied, hpost, ha⟩ := hflow
    obtain rfl := Option.some.inj hs
    exact ⟨h.moved hf (hhonest _) rfl rfl (h.safe.append hf (hwf _) hlock hemptied hpost (ha _)),
      .inl (atomic_moved (hmeaning _) rfl rfl rfl)⟩
  | delete pos next =>
    obtain ⟨hlock, hthread, hemptied, hpost, ha⟩ := hflow
    obtain rfl := Option.some.inj hs
    exact ⟨h.moved hf hhonest rfl rfl (h.safe.delete hf (hwf _) hlock hthread hemptied hpost ha),
      .inl (atomic_moved hmeaning rfl rfl rfl)⟩
  | popFront next =>
    obtain ⟨hlock, hthread, hemptied, hpost, hpending, ha⟩ := hflow
    obtain rfl := Option.some.inj hs
    exact ⟨h.moved hf (hhonest _) rfl rfl (h.safe.pop hf (hwf _) hlock hthread hemptied hpost hpending (ha _)),
      .inl (atomic_moved (hmeaning _) rfl rfl rfl)⟩
  | check next =>
    obtain ⟨howns, ha⟩ := hflow
    obtain rfl := Option.some.inj hs
    exact ⟨h.moved hf hhonest rfl rfl (h.safe.check hf (hwf _) howns ha), .inl (atomic_moved hmeaning rfl rfl rfl)⟩
  | setFiber fiber next =>
    obtain ⟨hthread, ha, hfiber⟩ := hflow
    obtain rfl := Option.some.inj hs
    exact ⟨h.moved hf hhonest rfl rfl (h.safe.setFiber hf (hwf _) hthread ha hfiber),
      .inl (atomic_moved hmeaning rfl rfl rfl)⟩
  | setOwner _ next | addThread next | removeThread next =>
    obtain rfl := Option.some.inj hs
    exact ⟨h.moved hf hhonest rfl rfl (h.safe.same hflow), .inl (atomic_moved hmeaning rfl rfl rfl)⟩
  | jump next =>
    obtain rfl := Option.some.inj hs
    refine ⟨h.moved hf hhonest rfl rfl ?_, .inl (atomic_moved hmeaning rfl rfl rfl)⟩
    rcases hflow with ha | ⟨hpost, ha⟩
    · exact h.safe.same ha
    · exact h.safe.turn hf (hwf _) (.inr (.inr ⟨hpost, rfl⟩)) (fun _ => rfl) ha
  | work next =>
    obtain ⟨hcls, hinside⟩ := hflow
    obtain rfl := Option.some.inj hs
    simp only [Meaning] at hmeaning
    refine ⟨h.moved hf (hhonest s.data) rfl rfl (h.safe.same ?_), .inr ?_⟩
    · change (⟨false, C.inside _, C.inside _, none, false, .away⟩ : Class ι) = _
      rw [hinside s.data]
      exact hcls.symm
    · simp only [Atomic.step, State.atomic, hmeaning, State.goto, client_goto]
      rfl
  | suspend next =>
    obtain ⟨hlock, hthread, hpending, hposts⟩ := hflow
    obtain rfl := Option.some.inj hs
    have hmoved := h.safe.suspend hf (hwf next) hlock (hposts.imp id fun hp => ⟨hp.1, hp.2.1⟩)
    rw [← cls_goto] at hmoved
    refine ⟨⟨hmoved, honest_update h.honest hhonest, ?_⟩, .inl (atomic_moved hmeaning rfl rfl rfl)⟩
    refine resting_update (fun g hgf => ?_) ⟨fun _ => ?_, fun hst => ?_⟩
    · simp only [State.leave, State.setStatus, State.goto, Function.update_of_ne hgf]
      exact h.resting g
    · rcases hposts with ⟨-, ha⟩ | ⟨-, -, hawake⟩
      · exact .inr (by rw [ha])
      · exact .inl hawake
    · simp [State.leave, State.setStatus, State.goto] at hst
  | ready g next =>
    obtain ⟨hpending, hpost, hlock, hth, ha⟩ := hflow
    obtain ⟨hst, hmoved⟩ := h.safe.wake hf (hwf next) hpending hth hpost ha
    have hst : s.status g = .suspend := hst
    rw [← cls_goto] at hmoved
    simp only [exec, hst, reduceCtorEq, if_false] at hs
    obtain rfl := Option.some.inj hs
    have hgf : g ≠ f := by
      rintro rfl
      rw [hf] at hst
      cases hst
    refine ⟨⟨hmoved, honest_update h.honest hhonest, ?_⟩, .inl (atomic_moved hmeaning rfl rfl rfl)⟩
    refine resting_update (fun x hxf => ?_) ?_
    · simp only [State.setStatus, State.goto]
      by_cases hxg : x = g
      · subst hxg
        rw [Function.update_self]
        exact ⟨fun _ => (h.resting x).awake (by rw [hst]; rintro ⟨⟩), (by rintro ⟨⟩)⟩
      · rw [Function.update_of_ne hxg]
        exact h.resting x
    · simp only [State.setStatus, State.goto, Function.update_of_ne (Ne.symm hgf), hf]
      exact .running
  | send g next =>
    obtain ⟨hpending, hpost, hlock, ha⟩ := hflow
    obtain rfl := Option.some.inj hs
    exact ⟨h.moved hf hhonest rfl rfl (h.safe.send hf (hwf _) hpending ha), .inl (atomic_moved hmeaning rfl rfl rfl)⟩
  | exit =>
    obtain rfl := Option.some.inj hs
    obtain ⟨hlock, hthread, hpending, hpost⟩ := hflow
    refine ⟨⟨h.safe.leave hf ⟨hlock, .inl hpost⟩ hpost (by rintro ⟨⟩) (by rintro ⟨⟩), h.honest, fun g => ?_⟩, .inl rfl⟩
    by_cases hgf : g = f
    · subst hgf
      obtain ⟨c, hc, hreturned⟩ := returned_of_exit hi
      have hc : (s.leave S g .exiting).control g = .user c := hc
      rw [hc]
      exact ⟨fun _ => .inl rfl, fun _ => ⟨c, rfl, hreturned⟩⟩
    · simp only [State.leave, State.setStatus, Function.update_of_ne hgf]
      exact h.resting g

/-- **Whatever happens next** keeps the invariant, fails no assertion, and is a step of the programs with the mutex
as it is meant, or nothing they see. -/
theorem step_inv {e : Label ι τ} {r : Option (State ι τ χ ω)} (h : Inv S C s) (hs : step S C s e = some r) :
    ∃ s', r = some s' ∧ Inv S C s' ∧ (s'.atomic = s.atomic ∨ ∃ f, Atomic.step C s.atomic f = some s'.atomic) := by
  cases e with
  | run f =>
    simp only [step] at hs
    split at hs
    · rename_i hrun
      obtain ⟨s', hs', rfl⟩ := Option.map_eq_some_iff.1 hs
      obtain ⟨hinv, hsim⟩ := exec_inv h ((h.safe.sched.running _ f).1 hrun).2 hs'
      exact ⟨s', rfl, hinv, hsim.imp id fun hstep => ⟨f, hstep⟩⟩
    · cases hs
  | pause f =>
    simp only [step] at hs
    split at hs
    · rename_i hp
      obtain ⟨hrun, -, hpause⟩ := hp
      obtain rfl := Option.some.inj hs
      obtain ⟨hrests, haway⟩ := rests_of_mayPause C.inside hpause
      have hf := ((h.safe.sched.running _ f).1 hrun).2
      refine ⟨_, rfl, ⟨h.safe.leave hf hrests haway (by rintro ⟨⟩) (by rintro ⟨⟩), h.honest, fun g => ?_⟩, .inl rfl⟩
      by_cases hgf : g = f
      · subst hgf
        simp only [State.leave, State.setStatus, Function.update_self]
        exact ⟨fun _ => .inl (mayAwake_of_mayPause hpause), (by rintro ⟨⟩)⟩
      · simp only [State.leave, State.setStatus, Function.update_of_ne hgf]
        exact h.resting g
    · cases hs
  | awake f =>
    simp only [step] at hs
    split at hs
    · rename_i hp
      obtain ⟨hf, hawake⟩ := hp
      obtain rfl := Option.some.inj hs
      refine ⟨_, rfl, ⟨h.safe.awake hf (post_of_mayAwake hawake), h.honest, fun g => ?_⟩, .inl rfl⟩
      by_cases hgf : g = f
      · subst hgf
        simp only [State.setStatus, Function.update_self]
        exact ⟨fun _ => .inl hawake, (by rintro ⟨⟩)⟩
      · simp only [State.setStatus, Function.update_of_ne hgf]
        exact h.resting g
    · cases hs
  | pick f =>
    simp only [step] at hs
    split at hs
    · rename_i hp
      obtain ⟨hf, hidle⟩ := hp
      obtain rfl := Option.some.inj hs
      refine ⟨_, rfl, ⟨h.safe.pick hf hidle, h.honest, fun g => ?_⟩, .inl rfl⟩
      by_cases hgf : g = f
      · subst hgf
        simp only [State.setStatus, Function.update_self]
        exact .running
      · simp only [State.setStatus, Function.update_of_ne hgf]
        exact h.resting g
    · cases hs
  | deliver th =>
    simp only [step] at hs
    split at hs
    · rename_i f rest hidle hbox
      obtain ⟨hst, hsafe⟩ := h.safe.deliver hidle hbox
      have hst : s.status f = .suspend := hst
      rw [if_pos hst] at hs
      obtain rfl := Option.some.inj hs
      refine ⟨_, rfl, ⟨hsafe, h.honest, fun g => ?_⟩, .inl rfl⟩
      by_cases hgf : g = f
      · subst hgf
        simp only [State.setStatus, Function.update_self]
        exact ⟨fun _ => (h.resting g).awake (by rw [hst]; rintro ⟨⟩), (by rintro ⟨⟩)⟩
      · simp only [State.setStatus, Function.update_of_ne hgf]
        exact h.resting g
    · cases hs

omit [DecidableEq τ] in
theorem inv_initial : Inv S C (.initial C data) := by
  have hoff : ∀ f, ((State.initial (τ := τ) C data).view C).cls f = ⟨false, false, false, none, false, .away⟩ := by
    intro f
    simp [State.view, State.initial, Control.cls, C.start_outside f]
  refine ⟨⟨?_, ?_, ⟨fun th f => iff_of_false (by rintro ⟨⟩) fun hf => ?_, fun f => (by rintro ⟨⟩)⟩, fun f _ => ?_, fun f => ?_,
    ⟨fun f => ?_, fun g f hg => ?_, fun th f hf => ?_, fun f pos hf => ?_, fun f hf => ?_⟩, fun f hf => ?_, rfl,
    fun _ hw => absurd rfl hw⟩, fun _ => trivial, fun f => ⟨fun _ => .inl rfl, (by rintro ⟨⟩)⟩⟩
  · simp only [hoff]
    exact fun f => iff_of_false Bool.false_ne_true (by rintro ⟨⟩)
  · simp only [hoff]
    exact fun f => iff_of_false Bool.false_ne_true (by rintro ⟨⟩)
  · cases hf.2
  · rw [hoff]
    exact ⟨rfl, .inl rfl⟩
  · exact wf _ (.user (C.start f))
  · simp only [hoff]
    simp [State.view, State.initial, registered]
  · rw [hoff] at hg
    cases hg
  · cases hf
  · rw [hoff] at hf
    rcases hf with hf | hf <;> cases hf
  · rw [hoff] at hf
    cases hf
  · rw [hoff] at hf
    cases hf

/-- Nothing has failed, and everything is in order. -/
theorem inv_reachable {st : Option (State ι τ χ ω)} (h : (mutexCode S C data).Reachable st) :
    ∃ s, st = some s ∧ Inv S C s ∧ (atomicMutex C data).Reachable s.atomic := by
  induction h with
  | init => exact ⟨_, rfl, inv_initial, .init⟩
  | step _ _ hs ih =>
    obtain ⟨s, rfl, hinv, hreach⟩ := ih
    obtain ⟨s', rfl, hinv', hsim⟩ := step_inv hinv hs
    refine ⟨s', rfl, hinv', ?_⟩
    rcases hsim with heq | ⟨f, hstep⟩
    · rw [heq]
      exact hreach
    · exact .step hreach trivial hstep

/-- Lock, count and unlock. -/
inductive Once
  | start
  | count
  | leave
  | returned
  deriving DecidableEq

def once : Client (Fin 2) Once ℕ where
  action
    | .start => .lock .count
    | .count => .work fun n => (.leave, n + 1)
    | .leave => .unlock .returned
    | .returned => .returned
  inside
    | .count | .leave => true
    | .start | .returned => false
  start _ := .start
  start_outside _ := rfl
  lock c n h := by
    cases c <;> cases h
    exact ⟨rfl, rfl⟩
  unlock c n h := by
    cases c <;> cases h
    exact ⟨rfl, rfl⟩
  work c next h data := by
    cases c <;> cases h
    rfl
  returned c h := by
    cases c <;> cases h
    rfl

/-- Two fibers, each in a thread of its own. -/
def apart : Setting (Fin 2) (Fin 2) := ⟨id, fun _ => true, fun _ _ => nofun, false⟩

/-- The second comes while the first holds the mutex. -/
def contended {ι τ : Type} (first second : ι) : List (Label ι τ) :=
  .pick first :: List.replicate 7 (.run first) ++ .pick second :: List.replicate 7 (.run second)

end MutexCode

end SocketAcl
