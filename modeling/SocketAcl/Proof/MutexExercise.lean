import SocketAcl.Proof.FiberMutex
import SocketAcl.Proof.MutexLive

/-!
# The `fiber_mutex` exercise, on the code of the mutex

* `exercise_ends`: all runs of the exercise end, and then no update is lost.
-/

namespace SocketAcl

namespace FiberMutex

open MutexCode

/-- `test_fiber_mutex`. -/
def action : Control → Action Control Int32
  | .lock i => .lock (.read i)
  | .read i => .work fun sharedResource => (.sleep i sharedResource, sharedResource)
  | .sleep i temp => .work fun sharedResource => (.write i temp, sharedResource)
  | .write i temp => .work fun _ => (.unlock i, temp + 1)
  | .unlock i => .unlock (.rest i)
  | .rest i => .work fun sharedResource => (.next i, sharedResource)
  | .returned => .returned

def client (ι : Type) : Client ι Control Int32 where
  action := action
  inside := Control.inside
  start _ := .lock ⟨0, Nat.zero_lt_succ 9⟩
  start_outside _ := rfl
  lock c n h := by
    cases c with
    | lock i =>
      obtain rfl := Action.lock.inj h
      exact ⟨rfl, rfl⟩
    | _ => cases h
  unlock c n h := by
    cases c with
    | unlock i =>
      obtain rfl := Action.unlock.inj h
      exact ⟨rfl, rfl⟩
    | _ => cases h
  work c next h data := by
    cases c with
    | lock i | unlock i | returned => cases h
    | rest i =>
      obtain rfl := Action.work.inj h
      exact (next_fields i).1
    | _ =>
      obtain rfl := Action.work.inj h
      rfl
  returned c h := by
    cases c with
    | returned => rfl
    | _ => cases h

/-- Each fiber in its thread; the class `fiber_mutex` sets no flags. -/
def setting (threads : List ℕ) : Setting (Fiber threads) (Fin threads.length) where
  tid f := f.1
  hooked _ := true
  alone _ _ := nofun
  lockTry := false

theorem remaining_lock {ι : Type} (c n : Control) (h : (client ι).action c = .lock n) : n.remaining < c.remaining := by
  cases c with
  | lock i =>
    obtain rfl := Action.lock.inj h
    simp only [Control.remaining]
    omega
  | _ => cases h

theorem remaining_unlock {ι : Type} (c n : Control) (h : (client ι).action c = .unlock n) :
    n.remaining < c.remaining := by
  cases c with
  | unlock i =>
    obtain rfl := Action.unlock.inj h
    simp only [Control.remaining]
    omega
  | _ => cases h

theorem remaining_work {ι : Type} (c : Control) (next : Int32 → Control × Int32) (h : (client ι).action c = .work next)
    (data : Int32) : (next data).1.remaining < c.remaining := by
  cases c with
  | lock i | unlock i | returned => cases h
  | rest i =>
    obtain rfl := Action.work.inj h
    simp only [Control.next]
    split <;> simp only [Control.remaining] <;> omega
  | _ =>
    obtain rfl := Action.work.inj h
    simp only [Control.remaining]
    omega

def ranked (ι : Type) : Ranked (client ι) := ⟨Control.remaining, remaining_lock, remaining_unlock, remaining_work⟩

/-- What the programs see. -/
def State.ofAtomic {ι : Type} (a : Atomic ι Control Int32) : State ι := ⟨a.data, a.owner, a.control⟩

theorem step_ofAtomic {ι : Type} [DecidableEq ι] {a b : Atomic ι Control Int32} {f : ι}
    (h : a.step (client ι) f = some b) : step (.ofAtomic a) f = some (.ofAtomic b) := by
  have hcontrol : (State.ofAtomic a).control f = a.control f := rfl
  unfold Atomic.step at h
  simp only [client] at h
  unfold step
  rw [hcontrol]
  cases hc : a.control f with
  | lock i =>
    simp only [hc, action] at h ⊢
    split at h
    · rename_i hfree
      obtain rfl := Option.some.inj h
      exact if_pos hfree
    · cases h
  | returned =>
    simp only [hc, action] at h
    cases h
  | _ =>
    simp only [hc, action] at h ⊢
    obtain rfl := Option.some.inj h
    rfl

theorem reachable_ofAtomic {threads : List ℕ} {initial : Int32} {a : Atomic (Fiber threads) Control Int32}
    (h : (atomicMutex (client (Fiber threads)) initial).Reachable a) :
    (fiberMutex threads initial).Reachable (.ofAtomic a) := by
  induction h with
  | init => exact .init
  | step _ _ hs ih => exact .step ih trivial (step_ofAtomic hs)

theorem toInt_add_ofNat {initial : Int32} {n : ℕ} (h : initial.toInt + n < 2 ^ 31) :
    (initial + Int32.ofNat n).toInt = initial.toInt + n := by
  have hmin := initial.le_toInt
  have hsize : Int32.size = 4294967296 := rfl
  rw [Int32.toInt_add, Int32.toInt_ofNat', hsize, Int.add_bmod_bmod]
  exact Int.bmod_eq_of_le (by omega) (by omega)

/-- **The exercise ends, and no update is lost.** For any threads with any number of fibers each, on the code of the
mutex and in every interleaving: no assertion fails; a run has at most 7682 steps for each fiber and three for each
pause; and where nothing but a pause can happen any more, all fibers have returned and the shared number is its
initial value and ten for each fiber, in the arithmetic of `int` and, where that does not overflow, in that of the
integers. -/
theorem exercise_ends {threads : List ℕ} {initial : Int32} {es : List (Label (Fiber threads) (Fin threads.length))}
    {st : Option (MutexCode.State (Fiber threads) (Fin threads.length) Control Int32)}
    (h : (mutexCode (setting threads) (client (Fiber threads)) initial).run
      (mutexCode (setting threads) (client (Fiber threads)) initial).init es = some st) :
    ∃ s, st = some s ∧ s.complained = false ∧ es.length ≤ 7682 * threads.sum + 3 * es.countP Label.isPause ∧
      (Stuck (setting threads) (client (Fiber threads)) s → (∀ f, s.control f = .user .returned) ∧
        s.data = initial + Int32.ofNat (10 * threads.sum) ∧
        (initial.toInt + 10 * threads.sum < 2 ^ 31 → s.data.toInt = initial.toInt + 10 * threads.sum)) := by
  have hreach := System.Reachable.run .init h
  obtain ⟨s, rfl, hinv, hatomic⟩ := inv_reachable hreach
  obtain ⟨s', heq, hle⟩ := run_measure (ranked (Fiber threads)) inv_initial h
  obtain rfl := Option.some.inj heq
  refine ⟨s, rfl, hinv.safe.quiet, ?_, fun hstuck => ?_⟩
  · have hinitial : (ranked (Fiber threads)).measure
        (MutexCode.State.initial (τ := Fin threads.length) (client (Fiber threads)) initial) =
        ∑ _f : Fiber threads, 7682 := rfl
    rw [hinitial, Finset.sum_const, Finset.card_univ, card_fiber, smul_eq_mul] at hle
    omega
  · have hreturned : ∀ f, s.control f = .user .returned := by
      intro f
      obtain ⟨c, hc, haction⟩ := returned_of_stuck hinv hstuck f
      rw [hc]
      cases c with
      | returned => rfl
      | _ => cases haction
    have htotal : s.data = initial + Int32.ofNat (∑ f, (s.control f).client.written) :=
      (counts_reachable (reachable_ofAtomic hatomic)).total
    have hsum : ∑ f, (s.control f).client.written = 10 * threads.sum := by
      simp only [hreturned, MutexCode.Control.client, Control.written, Finset.sum_const, Finset.card_univ, card_fiber,
        smul_eq_mul]
      exact Nat.mul_comm _ _
    rw [hsum] at htotal
    refine ⟨hreturned, htotal, fun hlt => ?_⟩
    rw [htotal, toInt_add_ofNat (by exact_mod_cast hlt)]
    push_cast
    rfl

/-- In each iteration the second fiber comes while the first holds the mutex, waits, and is woken through the
mailbox. -/
def inTurn {threads : List ℕ} (f g : Fiber threads) : List (Label (Fiber threads) (Fin threads.length)) :=
  [.pick f, .pick g] ++
    (List.replicate 10 (List.replicate 7 (.run f) ++ List.replicate 7 (.run g) ++ List.replicate 12 (.run f) ++
      [.deliver g.1, .pick g] ++ List.replicate 18 (.run g))).flatten ++
    [.run f, .run g]

theorem exercise_ends_inTurn :
    ∃ s : MutexCode.State (Fiber [1, 1]) (Fin 2) Control Int32,
      s.complained = false ∧ (∀ f, s.control f = .user .returned) ∧ s.data.toInt = 20 := by
  have hends : (((mutexCode (setting [1, 1]) (client (Fiber [1, 1])) 0).run
      (mutexCode (setting [1, 1]) (client (Fiber [1, 1])) 0).init
      (inTurn ⟨0, ⟨0, by decide⟩⟩ ⟨1, ⟨0, by decide⟩⟩)).any fun st =>
        st.any fun s => ended (setting [1, 1]) (client (Fiber [1, 1])) s) = true := by decide +kernel
  obtain ⟨st, hrun, hst⟩ := (Option.any_eq_true _ _).1 hends
  obtain ⟨s, rfl, hquiet, -, hend⟩ := exercise_ends hrun
  obtain ⟨hreturned, -, hdata⟩ := hend (stuck_of_ended hst)
  exact ⟨s, hquiet, hreturned, hdata (by decide)⟩

end FiberMutex

end SocketAcl
