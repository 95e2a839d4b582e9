import SocketAcl.Proof.Ring
import SocketAcl.Spec.Fiber

/-!
# A thread's fibers, as queues

What the scheduler does to its rings is what it would do to queues (`memory_refines`): so all that holds of a
thread over queues holds of the code. Over queues, `Sound` says where every fiber is.

* `thread_refines`: a run of a thread over queues is a run of the code.
* `Sound.takeOut`, `Sound.moveReady`, `Sound.leave`, `Sound.pick`: the moves of a fiber that keep it.
-/

namespace SocketAcl

variable {η Obj Op ι : Type} [DecidableEq η] [DecidableEq ι]

/-- The queues of a thread and of the objects. -/
abbrev Queues (η ι : Type) := Head η → List ι

open Classical in
/-- **The commands, on queues.** A fiber that waits already cannot be inserted. -/
noncomputable def queueExec : Interp (RingCommand η ι) RingCommand.Answer (Queues η ι)
  | .detach (.me f), q => some ((), fun r => (q r).erase f)
  | .detach (.head _), q => some ((), q)
  | .prepend r f, q => if ∀ r, f ∉ q r then some ((), Function.update q r (q r ++ [f])) else none
  | .popHead r, q => some ((q r).head?, Function.update q r (q r).tail)
  | .first r, q => some ((q r).head?, q)
  | .size r, q => some ((q r).length, q)
  | .calloc f, q => if ∀ r, f ∉ q r then some ((), q) else none

/-- Allocated memory holds no ring. -/
theorem Rings.calloc {η' : Type} {m : Memory (Node η' ι)} {q : η' → List ι} [DecidableEq η'] {f : ι} (h : Rings m q)
    (hf : ∀ r, f ∉ q r) : Rings (Function.update m (.me f) .zero) q := by
  have hne : ∀ {x : Node η' ι}, x ≠ .me f → Function.update m (.me f) .zero x = m x :=
    fun hx => Function.update_of_ne hx ..
  refine ⟨fun r => (h.ring r).frame (fun x hx => ?_) fun x hx => ?_, fun r => ?_, fun r => ?_,
    fun r g hg => ?_, fun g hg => ?_⟩
  · have hx : x ≠ .me f := by
      rintro rfl
      exact hf r (me_mem.1 hx)
    simp only [Memory.links, hne hx]
  · have hx : x ≠ .me f := by
      rintro rfl
      exact hf r (me_mem.1 hx)
    simp only [Memory.links, hne hx]
  · rw [hne (by simp)]
    exact h.head r
  · rw [hne (by simp)]
    exact h.len r
  · have hx : Node.me g ≠ Node.me (η := η') f := by
      rintro ⟨⟩
      exact hf r hg
    rw [hne hx]
    exact h.parent r g hg
  · by_cases hgf : g = f
    · subst hgf
      refine .inr ?_
      rw [Function.update_self]
      exact ⟨rfl, rfl⟩
    · have hx : Node.me g ≠ Node.me (η := η') f := by simpa using hgf
      rw [Memory.Free, hne hx]
      exact h.free g hg

/-- **Rings are queues**: where the queues allow a command, the rings do what it does. -/
theorem memory_refines :
    Prog.Refines (Rings (η := Head η) (ι := ι)) memoryExec queueExec := by
  intro c m q answer q' h hq
  cases c with
  | detach x =>
    cases x with
    | head r =>
      cases hq
      exact ⟨m, by simp [memoryExec, h.detach_head r], h⟩
    | me f =>
      cases hq
      obtain ⟨m', hm', h'⟩ := h.detach f
      exact ⟨m', by simp [memoryExec, hm'], h'⟩
  | prepend r f =>
    simp only [queueExec] at hq
    split at hq
    · rename_i hf
      cases hq
      obtain ⟨m', hm', h'⟩ := h.prepend hf r
      exact ⟨m', by simp [memoryExec, hm'], h'⟩
    · cases hq
  | popHead r =>
    cases hq
    obtain ⟨m', hm', h'⟩ := h.popHead r
    refine ⟨m', ?_, h'⟩
    cases hl : (q r).head? with
    | none => simp [memoryExec, hm', hl]
    | some f => simp [memoryExec, hm', hl, ringToFiber]
  | first r =>
    cases hq
    refine ⟨m, ?_, h⟩
    cases hl : q r with
    | nil => simp [memoryExec, firstFiber, h.succ_nil hl]
    | cons f l => simp [memoryExec, firstFiber, h.succ_cons hl, ringToFiber]
  | size r =>
    cases hq
    exact ⟨m, by simp [memoryExec, ringSize, h.len r], h⟩
  | calloc f =>
    simp only [queueExec] at hq
    split at hq
    · rename_i hf
      cases hq
      exact ⟨_, rfl, h.calloc hf⟩
    · cases hq

omit [DecidableEq η] [DecidableEq ι] in
theorem rings_initial : Rings (η := Head η) (ι := ι) Memory.initial fun _ => [] := by
  refine ⟨fun r => ⟨?_, by simp⟩, fun r => rfl, fun r => rfl, fun r f hf => ?_, fun f _ => .inr ⟨rfl, rfl⟩⟩
  · exact List.isChain_cons_cons.2 ⟨⟨rfl, rfl⟩, .singleton _⟩
  · cases hf

/-- **The thread does to its rings what it would do to queues.** Whatever the operations on objects are: a run over
queues in which no fiber is inserted that waits already is a run of the code, with the same states of the thread; no
null pointer is followed in it, and from each head the links lead through its queue and back. -/
theorem thread_refines {code : SyncCode η Obj Op ι} {t t' : Thread Obj Op ι} {m : Memory (Node (Head η) ι)}
    {q q' : Queues η ι} {es : List (FiberLabel Op ι)} (hm : Rings m q)
    (hrun : (code.thread queueExec t q).run (code.thread queueExec t q).init es = some (some (t', q'))) :
    ∃ m', (code.thread memoryExec t m).run (code.thread memoryExec t m).init es = some (some (t', m')) ∧
      Rings m' q' := by
  -- the steps do not depend on where the systems begin
  suffices hfrom : ∀ t₁ m₁ q₁, Rings m₁ q₁ →
      (code.thread queueExec t q).run (some (t₁, q₁)) es = some (some (t', q')) →
      ∃ m', (code.thread memoryExec t m).run (some (t₁, m₁)) es = some (some (t', m')) ∧ Rings m' q' from
    hfrom t m q hm hrun
  clear hrun
  induction es with
  | nil =>
    intro t₁ m₁ q₁ hm₁ hrun
    obtain ⟨rfl, rfl⟩ := Prod.mk.inj (Option.some.inj (Option.some.inj hrun))
    exact ⟨m₁, rfl, hm₁⟩
  | cons e es ih =>
    intro t₁ m₁ q₁ hm₁ hrun
    obtain ⟨st, hstep, hrest⟩ := Option.bind_eq_some_iff.1 hrun
    have hstep : (if t₁.enabled e then some (((code.exec e t₁).run queueExec q₁).map fun result =>
        (result.1.2, result.2)) else none) = some st := hstep
    have henabled : t₁.enabled e = true := by
      by_contra hnot
      rw [if_neg hnot] at hstep
      cases hstep
    rw [if_pos henabled] at hstep
    obtain rfl := Option.some.inj hstep
    cases hresult : (code.exec e t₁).run queueExec q₁ with
    | none =>
      -- a thread that has failed does not come back
      rw [hresult] at hrest
      cases es with
      | nil => cases Option.some.inj hrest
      | cons e' es => cases hrest
    | some result =>
      obtain ⟨⟨⟨⟩, t₂⟩, q₂⟩ := result
      rw [hresult] at hrest
      obtain ⟨m₂, hrun₂, hm₂⟩ := Prog.run_refines memory_refines (code.exec e t₁) hm₁ hresult
      obtain ⟨m', hrun', hm'⟩ := ih t₂ m₂ q₂ hm₂ hrest
      refine ⟨m', Option.bind_eq_some_iff.2 ⟨some (t₂, m₂), ?_, hrun'⟩, hm'⟩
      change (if t₁.enabled e then some (((code.exec e t₁).run memoryExec m₁).map fun result =>
        (result.1.2, result.2)) else none) = _
      rw [if_pos henabled, hrun₂]
      rfl

theorem forall_head {p : Head Unit → Prop} : (∀ r, p r) ↔ p .ready ∧ p .dead ∧ p (.ring ()) := by
  constructor
  · exact fun h => ⟨h _, h _, h _⟩
  · rintro ⟨hready, hdead, hring⟩ r
    cases r with
    | ready => exact hready
    | dead => exact hdead
    | ring _ => exact hring

/-- An operation that only waits. -/
def waitOnly : SyncCode Unit Unit Unit (Fin 2) := ⟨fiberWait (), fun _ => pure ()⟩

theorem thread_refines_waitOnly : ∃ (m : Memory (Node (Head Unit) (Fin 2))) (t : Thread Unit Unit (Fin 2))
    (q : Queues Unit (Fin 2)), Rings m q ∧ q (.ring ()) = [0] ∧ t.running = some 1 := by
  have hpure : ∀ {α : Type} (a : α) (t : Thread Unit Unit (Fin 2)),
      (StateT.pure a : FiberCode Unit Unit Unit (Fin 2) α) t = .done (a, t) := fun _ _ => rfl
  have hrun : ∃ t q, (waitOnly.thread queueExec (.initial ()) fun _ => []).run
      (waitOnly.thread queueExec (.initial ()) fun _ => []).init [.create 0, .create 1, .schedule, .call ()] =
      some (some (t, q)) ∧ q (.ring ()) = [0] ∧ t.running = some 1 := by
    simp [System.run, SyncCode.thread, SyncCode.exec, waitOnly, Thread.enabled, Thread.initial, Thread.setStatus,
      Thread.setPlace, Place.isUser, Place.isUnborn, fiberCreate, fiberReady, fiberSchedule, fiberSwap, fiberWait,
      fiberRunning, fiberSwitch, popHead, calloc, detach, prepend, queueExec, forall_head, Code.perform, Prog.run,
      Prog.bind, bind, pure, get, getThe, modify, modifyGet, MonadStateOf.get, MonadStateOf.modifyGet, StateT.bind,
      hpure, StateT.get, StateT.modifyGet]
  obtain ⟨t, q, hrun, hq, ht⟩ := hrun
  obtain ⟨m, -, hm⟩ := thread_refines rings_initial hrun
  exact ⟨m, t, q, hm, hq, ht⟩

/-! ## Where every fiber is -/

/-- In its own code, or in an operation. -/
def Place.alive : Place Op → Bool
  | .user | .inside _ => true
  | _ => false

/-- The queue a fiber may be in, where its code stands. `ringOf` is the ring an operation may wait in. -/
def Place.fits (ringOf : Op → Option η) (p : Place Op) : Head η → Prop
  | .ready => p.alive = true
  | .dead => p = .gone
  | .ring r => ∃ op, p = .inside op ∧ ringOf op = some r

/-- **Where every fiber is.** -/
structure Sound (ringOf : Op → Option η) (running : Option ι) (status : ι → FiberStatus) (place : ι → Place Op)
    (q : Queues η ι) : Prop where
  nodup : ∀ r, (q r).Nodup
  apart : ∀ r r' f, f ∈ q r → f ∈ q r' → r = r'
  current : ∀ f, running = some f → (place f).alive = true ∧ status f = .running ∧ ∀ r, f ∉ q r
  fits : ∀ r, ∀ f ∈ q r, (place f).fits ringOf r
  gone : ∀ f, place f = .gone → f ∈ q .dead
  inside : ∀ f op, place f = .inside op →
    running = some f ∨ f ∈ q .ready ∨ ∃ r, ringOf op = some r ∧ f ∈ q (.ring r)
  exiting : ∀ f, status f = .exiting ↔ place f = .gone

/-- The queues without a fiber. -/
def Queues.drop (q : Queues η ι) (f : ι) : Queues η ι := fun r => (q r).erase f

/-- The queues with a fiber put behind one of them, if any. -/
def Queues.put (q : Queues η ι) (r : Option (Head η)) (f : ι) : Queues η ι :=
  r.elim q fun r => Function.update q r (q r ++ [f])

omit [DecidableEq ι] in
theorem Queues.put_self {q : Queues η ι} {f : ι} {r : Head η} : q.put (some r) f r = q r ++ [f] := by
  simp [Queues.put]

omit [DecidableEq ι] in
theorem Queues.put_of_ne {q : Queues η ι} {f : ι} {r r' : Head η} (hr : r' ≠ r) : q.put (some r) f r' = q r' := by
  simp [Queues.put, hr]

/-- The states when the next fiber runs. -/
def runNext (status : ι → FiberStatus) : Option ι → ι → FiberStatus
  | none => status
  | some g => Function.update status g .running

namespace Sound

variable {ringOf : Op → Option η} {running : Option ι} {status : ι → FiberStatus} {place : ι → Place Op}
  {q : Queues η ι} {f g : ι} {r : Head η} {p : Place Op} {o : Option (Head η)} {st : FiberStatus}

omit [DecidableEq η] [DecidableEq ι] in
theorem not_exiting (h : Sound ringOf running status place q) (hf : (place f).alive = true) :
    status f ≠ .exiting := by
  intro hs
  rw [(h.exiting f).1 hs] at hf
  cases hf

omit [DecidableEq η] in
theorem mem_drop (h : Sound ringOf running status place q) : g ∈ q.drop f r ↔ g ∈ q r ∧ g ≠ f := by
  rw [Queues.drop, (h.nodup r).mem_erase_iff, and_comm]

omit [DecidableEq ι] in
theorem mem_put : g ∈ q.put o f r ↔ g ∈ q r ∨ o = some r ∧ g = f := by
  cases o with
  | none => simp [Queues.put]
  | some r' =>
    unfold Queues.put
    by_cases hr : r = r'
    · subst hr
      simp
    · simp [hr, Ne.symm hr]

omit [DecidableEq ι] in
theorem nodup_put (hq : ∀ r, (q r).Nodup) (hf : ∀ r, f ∉ q r) (r : Head η) : (q.put o f r).Nodup := by
  cases o with
  | none => exact hq r
  | some r' =>
    unfold Queues.put
    by_cases hr : r = r'
    · subst hr
      simp only [Option.elim, Function.update_self, List.nodup_append]
      refine ⟨hq r, List.nodup_singleton f, fun a ha b hb hab => hf r ?_⟩
      rw [← List.mem_singleton.1 hb, ← hab]
      exact ha
    · simp only [Option.elim, Function.update_of_ne hr]
      exact hq r

omit [DecidableEq η] in
/-- **A fiber is taken out**, and stands in its own code. -/
theorem takeOut (h : Sound ringOf running status place q) (hst : st ≠ .exiting) (hrun : running = some f → st = .running) :
    Sound ringOf running (Function.update status f st) (Function.update place f .user) (q.drop f) := by
  refine ⟨fun r => (h.nodup r).erase f, fun r r' g hg hg' => ?_, fun g hg => ?_, fun r g hg => ?_, fun g hg => ?_,
    fun g op hg => ?_, fun g => ?_⟩
  · exact h.apart r r' g (h.mem_drop.1 hg).1 (h.mem_drop.1 hg').1
  · refine ⟨?_, ?_, fun r hmem => (h.current g hg).2.2 r (h.mem_drop.1 hmem).1⟩
    · by_cases hgf : g = f
      · rw [hgf, Function.update_self]
        rfl
      · rw [Function.update_of_ne hgf]
        exact (h.current g hg).1
    · by_cases hgf : g = f
      · subst hgf
        rw [Function.update_self]
        exact hrun hg
      · rw [Function.update_of_ne hgf]
        exact (h.current g hg).2.1
  · obtain ⟨hg, hgf⟩ := h.mem_drop.1 hg
    rw [Function.update_of_ne hgf]
    exact h.fits r g hg
  · have hgf : g ≠ f := by
      rintro rfl
      rw [Function.update_self] at hg
      cases hg
    rw [Function.update_of_ne hgf] at hg
    exact h.mem_drop.2 ⟨h.gone g hg, hgf⟩
  · have hgf : g ≠ f := by
      rintro rfl
      rw [Function.update_self] at hg
      cases hg
    rw [Function.update_of_ne hgf] at hg
    rcases h.inside g op hg with hrun | hready | ⟨r, hr, hring⟩
    · exact .inl hrun
    · exact .inr (.inl (h.mem_drop.2 ⟨hready, hgf⟩))
    · exact .inr (.inr ⟨r, hr, h.mem_drop.2 ⟨hring, hgf⟩⟩)
  · by_cases hgf : g = f
    · subst hgf
      rw [Function.update_self, Function.update_self]
      exact iff_of_false hst nofun
    · rw [Function.update_of_ne hgf, Function.update_of_ne hgf]
      exact h.exiting g

/-- **A fiber is made ready**, wherever it was. -/
theorem moveReady (h : Sound ringOf running status place q) (hf : (place f).alive = true) (hne : running ≠ some f) :
    Sound ringOf running (Function.update status f .ready) place ((q.drop f).put (some .ready) f) := by
  have hmem : ∀ {g r}, g ∈ (q.drop f).put (some .ready) f r → g ≠ f ∧ g ∈ q r ∨ r = .ready ∧ g = f := by
    intro g r hg
    rcases mem_put.1 hg with hg | ⟨hr, hgf⟩
    · exact .inl (h.mem_drop.1 hg).symm
    · exact .inr ⟨(Option.some.inj hr).symm, hgf⟩
  have hkeep : ∀ {g r}, g ∈ q r → g ≠ f → g ∈ (q.drop f).put (some .ready) f r :=
    fun hg hgf => mem_put.2 (.inl (h.mem_drop.2 ⟨hg, hgf⟩))
  have hstatus : ∀ {g}, g ≠ f → Function.update status f .ready g = status g := fun hgf => Function.update_of_ne hgf ..
  refine ⟨nodup_put (fun r => (h.nodup r).erase f) fun r hr => (h.mem_drop.1 hr).2 rfl, fun r r' g hg hg' => ?_,
    fun g hg => ?_, fun r g hg => ?_, fun g hg => ?_, fun g op hg => ?_, fun g => ?_⟩
  · rcases hmem hg with ⟨hgf, hg⟩ | ⟨rfl, rfl⟩ <;> rcases hmem hg' with ⟨hgf', hg'⟩ | ⟨rfl, hgf'⟩
    · exact h.apart r r' g hg hg'
    · exact absurd hgf' hgf
    · exact absurd rfl hgf'
    · rfl
  · have hgf : g ≠ f := by
      rintro rfl
      exact hne hg
    obtain ⟨halive, hrunning, hnot⟩ := h.current g hg
    refine ⟨halive, (hstatus hgf).trans hrunning, fun r hg => ?_⟩
    rcases hmem hg with ⟨_, hg⟩ | ⟨_, heq⟩
    · exact hnot r hg
    · exact hgf heq
  · rcases hmem hg with ⟨_, hg⟩ | ⟨rfl, rfl⟩
    · exact h.fits r g hg
    · exact hf
  · refine hkeep (h.gone g hg) ?_
    rintro rfl
    rw [hg] at hf
    cases hf
  · by_cases hgf : g = f
    · exact .inr (.inl (mem_put.2 (.inr ⟨rfl, hgf⟩)))
    · rcases h.inside g op hg with hrun | hready | ⟨r, hr, hring⟩
      · exact .inl hrun
      · exact .inr (.inl (hkeep hready hgf))
      · exact .inr (.inr ⟨r, hr, hkeep hring hgf⟩)
  · by_cases hgf : g = f
    · subst hgf
      rw [Function.update_self]
      refine iff_of_false nofun fun hg => ?_
      rw [hg] at hf
      cases hf
    · rw [hstatus hgf]
      exact h.exiting g

/-- **The running fiber leaves** the thread, to a queue where it fits or to sleep. -/
theorem leave (h : Sound ringOf (some f) status place q) (hfits : ∀ r, o = some r → p.fits ringOf r)
    (hnone : o = none → p = .user) (hst : st = .exiting ↔ p = .gone) :
    Sound ringOf none (Function.update status f st) (Function.update place f p) (q.put o f) := by
  obtain ⟨halive, -, hnot⟩ := h.current f rfl
  have hmem : ∀ {g r}, g ∈ q.put o f r → g ≠ f ∧ g ∈ q r ∨ o = some r ∧ g = f := by
    intro g r hg
    rcases mem_put.1 hg with hq | ho
    · exact .inl ⟨ne_of_mem_of_not_mem hq (hnot r), hq⟩
    · exact .inr ho
  refine ⟨nodup_put h.nodup hnot, fun r r' g hg hg' => ?_, nofun, fun r g hg => ?_, fun g hg => ?_,
    fun g op hg => ?_, fun g => ?_⟩
  · rcases hmem hg with ⟨hgf, hg⟩ | ⟨ho, rfl⟩ <;> rcases hmem hg' with ⟨hgf', hg'⟩ | ⟨ho', hgf'⟩
    · exact h.apart r r' g hg hg'
    · exact absurd hgf' hgf
    · exact absurd rfl hgf'
    · exact Option.some.inj (ho.symm.trans ho')
  · rcases hmem hg with ⟨hgf, hg⟩ | ⟨ho, rfl⟩
    · rw [Function.update_of_ne hgf]
      exact h.fits r g hg
    · rw [Function.update_self]
      exact hfits r ho
  · by_cases hgf : g = f
    · subst hgf
      rw [Function.update_self] at hg
      subst hg
      -- the dead are the only queue that fits
      cases o with
      | none => cases hnone rfl
      | some r =>
        cases r with
        | ready => cases hfits _ rfl
        | dead => exact mem_put.2 (.inr ⟨rfl, rfl⟩)
        | ring r =>
          obtain ⟨op, hop, _⟩ := hfits _ rfl
          cases hop
    · rw [Function.update_of_ne hgf] at hg
      exact mem_put.2 (.inl (h.gone g hg))
  · by_cases hgf : g = f
    · subst hgf
      rw [Function.update_self] at hg
      subst hg
      cases o with
      | none => cases hnone rfl
      | some r =>
        cases r with
        | ready => exact .inr (.inl (mem_put.2 (.inr ⟨rfl, rfl⟩)))
        | dead => cases hfits _ rfl
        | ring r =>
          obtain ⟨op', hop, hr⟩ := hfits _ rfl
          cases hop
          exact .inr (.inr ⟨r, hr, mem_put.2 (.inr ⟨rfl, rfl⟩)⟩)
    · rw [Function.update_of_ne hgf] at hg
      rcases h.inside g op hg with hrun | hready | ⟨r, hr, hring⟩
      · exact absurd (Option.some.inj hrun).symm hgf
      · exact .inr (.inl (mem_put.2 (.inl hready)))
      · exact .inr (.inr ⟨r, hr, mem_put.2 (.inl hring)⟩)
  · by_cases hgf : g = f
    · subst hgf
      rw [Function.update_self, Function.update_self]
      exact hst
    · rw [Function.update_of_ne hgf, Function.update_of_ne hgf]
      exact h.exiting g

/-- **The next fiber runs.** -/
theorem pick (h : Sound ringOf none status place q) :
    Sound ringOf (q .ready).head? (runNext status (q .ready).head?) place
      (Function.update q .ready (q .ready).tail) := by
  cases hl : q .ready with
  | nil =>
    have hsame : Function.update q .ready [] = q := by rw [← hl, Function.update_eq_self]
    rw [List.tail_nil, hsame]
    exact h
  | cons f l =>
    have hmem : ∀ {g r}, g ∈ Function.update q .ready l r → g ∈ q r ∧ g ≠ f := by
      intro g r hg
      have hnd := h.nodup .ready
      rw [hl, List.nodup_cons] at hnd
      have hf : f ∈ q .ready := by
        rw [hl]
        exact List.mem_cons_self
      by_cases hr : r = .ready
      · subst hr
        rw [Function.update_self] at hg
        rw [hl]
        exact ⟨List.mem_cons_of_mem f hg, ne_of_mem_of_not_mem hg hnd.1⟩
      · rw [Function.update_of_ne hr] at hg
        refine ⟨hg, ?_⟩
        rintro rfl
        exact hr (h.apart r .ready g hg hf)
    have halive : (place f).alive = true := h.fits .ready f (by rw [hl]; exact List.mem_cons_self)
    refine ⟨fun r => ?_, fun r r' g hg hg' => h.apart r r' g (hmem hg).1 (hmem hg').1, fun g hg => ?_,
      fun r g hg => h.fits r g (hmem hg).1, fun g hg => ?_, fun g op hg => ?_, fun g => ?_⟩
    · by_cases hr : r = .ready
      · subst hr
        rw [Function.update_self]
        exact (List.nodup_cons.1 (hl ▸ h.nodup .ready)).2
      · rw [Function.update_of_ne hr]
        exact h.nodup r
    · obtain rfl := Option.some.inj hg
      exact ⟨halive, Function.update_self .., fun r hmem' => (hmem hmem').2 rfl⟩
    · rw [List.tail_cons, Function.update_of_ne (by simp)]
      exact h.gone g hg
    · rcases h.inside g op hg with hrun | hready | ⟨r, hr, hring⟩
      · cases hrun
      · rw [hl] at hready
        rcases List.mem_cons.1 hready with rfl | hready
        · exact .inl rfl
        · exact .inr (.inl (by rw [Function.update_self]; exact hready))
      · refine .inr (.inr ⟨r, hr, ?_⟩)
        rw [Function.update_of_ne (by simp)]
        exact hring
    · by_cases hgf : g = f
      · subst hgf
        refine iff_of_false (by simp [runNext]) fun hg => ?_
        rw [hg] at halive
        cases halive
      · rw [List.head?_cons, runNext, Function.update_of_ne hgf]
        exact h.exiting g

end Sound

end SocketAcl
