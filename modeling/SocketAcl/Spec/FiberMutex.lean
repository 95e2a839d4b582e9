import Mathlib.Data.Sigma.Basic
import SocketAcl.Lib.System

/-!
# The `fiber_mutex` exercise (`fiber_mutex_ex.cpp`)

Some threads, each with some fibers that run `test_fiber_mutex`: ten times, the shared number is
read, the fiber sleeps, and one more than what was read is written back, all under the mutex.

A label is the fiber that moves. Which of them moves next is left open, within a thread as between
threads, and so is how long a sleep takes.
-/

namespace SocketAcl

namespace FiberMutex

/-- Where a fiber stands in iteration `i` of `test_fiber_mutex`. -/
inductive Control
  /-- at `fmutex.lock()` -/
  | lock (i : Fin 10)
  /-- at `int temp = shared_resource` -/
  | read (i : Fin 10)
  /-- in the `sleep_for` that provokes the race -/
  | sleep (i : Fin 10) (temp : Int32)
  /-- at `shared_resource = temp + 1` -/
  | write (i : Fin 10) (temp : Int32)
  /-- at `fmutex.unlock()` -/
  | unlock (i : Fin 10)
  /-- in the `sleep_for` behind the unlock -/
  | rest (i : Fin 10)
  | returned
  deriving DecidableEq

structure State (ι : Type*) where
  sharedResource : Int32
  /-- the fiber that holds `fmutex` -/
  owner : Option ι
  control : ι → Control

/-- The end of an iteration: `++i`, and `i < 10`. -/
def Control.next (i : Fin 10) : Control := if h : i.val + 1 < 10 then .lock ⟨i + 1, h⟩ else .returned

variable {ι : Type*} [DecidableEq ι]

/-- A fiber moves on. `fmutex.lock()` returns when the mutex is free. -/
def step (s : State ι) (f : ι) : Option (State ι) :=
  match s.control f with
  | .lock i =>
    if s.owner = none then some { s with owner := some f, control := Function.update s.control f (.read i) } else none
  | .read i => some { s with control := Function.update s.control f (.sleep i s.sharedResource) }
  | .sleep i temp => some { s with control := Function.update s.control f (.write i temp) }
  | .write i temp =>
    some { s with sharedResource := temp + 1, control := Function.update s.control f (.unlock i) }
  | .unlock i => some { s with owner := none, control := Function.update s.control f (.rest i) }
  | .rest i => some { s with control := Function.update s.control f (.next i) }
  | .returned => none

/-- The fibers of some threads, each given by how many it has (`thread_func`). -/
abbrev Fiber (threads : List ℕ) := (t : Fin threads.length) × Fin threads[t]

end FiberMutex

/-- All the fibers of all the threads, from the start of `test_fiber_mutex` on. -/
def fiberMutex (threads : List ℕ) (initial : Int32) :
    System (FiberMutex.State (FiberMutex.Fiber threads)) (FiberMutex.Fiber threads) :=
  ⟨⟨initial, none, fun _ => .lock 0⟩, FiberMutex.step⟩

end SocketAcl
