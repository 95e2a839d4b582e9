import SocketAcl.Spec.Fiber

/-!
# The mutex of fibers and threads (`fiber_mutex.c`)

A mutex that the fibers of several threads and threads without fibers share. What is held is `thread_lock`;
`lock` guards the array of the fibers that wait for it. A fiber that unlocks takes one out of the array and wakes
it, in its own thread or through the mailbox of the other; who has been woken tries again, like everybody else.

The functions are given by what they do at each point (`code`), one access of shared memory at a time, and a
label is who moves. What the fibers do between `lock` and `unlock`, and outside, is a parameter (`Client`). Which
of a thread's ready fibers goes on is left open, and so is how long a sleep takes.

Left out are `acl_fiber_mutex_trylock`, the list of all mutexes, and the kill of a fiber that waits.
-/

namespace SocketAcl

namespace MutexCode

/-- What a fiber does next, outside of the mutex. -/
inductive Action (χ ω : Type)
  | lock (next : χ)
  | unlock (next : χ)
  /-- one access of what is shared, or none -/
  | work (next : ω → χ × ω)
  | returned

/-- **Programs that use the mutex**: each fiber unlocks what it has locked. -/
structure Client (ι χ ω : Type) where
  action : χ → Action χ ω
  /-- between `lock` and `unlock` -/
  inside : χ → Bool
  start : ι → χ
  start_outside : ∀ f, inside (start f) = false
  lock : ∀ c n, action c = .lock n → inside c = false ∧ inside n = true
  unlock : ∀ c n, action c = .unlock n → inside c = true ∧ inside n = false
  work : ∀ c next, action c = .work next → ∀ data, inside (next data).1 = inside c
  returned : ∀ c, action c = .returned → inside c = false

/-- Who there is. -/
structure Setting (ι τ : Type) where
  tid : ι → τ
  /-- `var_hook_sys_api`: a fiber, and not a thread of its own -/
  hooked : ι → Bool
  alone : ∀ f g, hooked f = false → tid f = tid g → f = g
  /-- `FIBER_MUTEX_F_LOCK_TRY` -/
  lockTry : Bool

/-- Where `acl_fiber_mutex_lock` stands, with its `wakeup` and `pos`. -/
inductive LockPc
  | tryEarly (wakeup : ℕ)
  | enterLate (wakeup : ℕ)
  | enter (wakeup : ℕ)
  | tryFirst (wakeup : ℕ)
  | append (wakeup : ℕ)
  | trySecond (wakeup pos : ℕ)
  | delete (pos : ℕ)
  | release (wakeup : ℕ)
  | switch (wakeup : ℕ)
  /-- behind `acl_fiber_switch` -/
  | waiting (wakeup : ℕ)
  | delay
  | delayed
  | threadRelease
  | addEnter
  | add
  | addRelease
  | block
  | taken
  | owner
  | removeEnter
  | remove
  | removeRelease
  | fiber
  deriving DecidableEq

/-- Where `acl_fiber_mutex_unlock` stands, with its `fiber`. -/
inductive UnlockPc (ι : Type)
  | enter
  | pop
  | check (fiber : Option ι)
  | owner (fiber : Option ι)
  | fiber (fiber : Option ι)
  | releaseThread (fiber : Option ι)
  | release (fiber : Option ι)
  | wake (fiber : ι)
  deriving DecidableEq

/-- Where a fiber stands; in a call, with where it was before and where it comes to. -/
inductive Control (ι χ : Type)
  | user (c : χ)
  | locking (c n : χ) (pc : LockPc)
  | unlocking (c n : χ) (pc : UnlockPc ι)
  deriving DecidableEq

/-- One access of shared memory, and where the code goes on. -/
inductive Instr (ι χ ω : Type)
  /-- `pthread_mutex_lock(&mutex->lock)` -/
  | lock (next : Control ι χ)
  | unlock (next : Control ι χ)
  /-- `pthread_mutex_trylock(&mutex->thread_lock)` -/
  | tryThread (taken busy : Control ι χ)
  | lockThread (next : Control ι χ)
  | unlockThread (next : Control ι χ)
  /-- `array_append(mutex->waiters, fiber)` -/
  | append (next : ℕ → Control ι χ)
  | delete (pos : ℕ) (next : Control ι χ)
  | popFront (next : Option ι → Control ι χ)
  /-- the sanity check of `acl_fiber_mutex_unlock` -/
  | check (next : Control ι χ)
  | setOwner (owner : Option ι) (next : Control ι χ)
  | setFiber (fiber : Option ι) (next : Control ι χ)
  | addThread (next : Control ι χ)
  | removeThread (next : Control ι χ)
  /-- `acl_fiber_switch`, until somebody makes the fiber ready -/
  | suspend (next : Control ι χ)
  /-- `FIBER_READY(fiber)` -/
  | ready (fiber : ι) (next : Control ι χ)
  /-- `mbox_send` to the thread of the fiber -/
  | send (fiber : ι) (next : Control ι χ)
  | work (next : ω → χ × ω)
  | jump (next : Control ι χ)
  | exit

/-- The mutex, the threads, and what the fibers share. -/
structure State (ι τ χ ω : Type) where
  data : ω
  /-- who holds `mutex->lock` -/
  lock : Option ι
  /-- who holds `mutex->thread_lock` -/
  threadLock : Option ι
  owner : Option ι
  fiber : Option ι
  waiters : List ι
  waitingThreads : List ι
  /-- `SYNC_WAITER`'s mailbox -/
  box : τ → List ι
  running : τ → Option ι
  status : ι → FiberStatus
  control : ι → Control ι χ
  /-- the sanity check has failed once -/
  complained : Bool

inductive Label (ι τ : Type)
  /-- the fiber its thread runs goes on -/
  | run (f : ι)
  /-- a fiber gives way or goes to sleep in its own code, or in the `sync_waiter_wakeup` of another thread's fiber -/
  | pause (f : ι)
  /-- a timer or an event makes it ready again -/
  | awake (f : ι)
  /-- a thread that runs no fiber takes up a ready one -/
  | pick (f : ι)
  /-- `fiber_waiting` of a thread reads its mailbox -/
  | deliver (th : τ)

/-- `array_delete` of an `ARRAY_F_UNORDER`: the last item comes into the gap. -/
def arrayDelete {α : Type} (items : List α) (pos : ℕ) : List α :=
  match items.getLast? with
  | none => items
  | some last => if pos < items.length then (items.set pos last).dropLast else items

section Code

variable {ι τ χ ω : Type} [DecidableEq ι] [DecidableEq τ]

/-- `acl_fiber_running`. -/
def Setting.me (S : Setting ι τ) (f : ι) : Option ι := if S.hooked f then some f else none

/-- Where the loops of `fiber_mutex_lock_once` and `fiber_mutex_lock_try` begin. -/
def Setting.loop (S : Setting ι τ) (wakeup : ℕ) : LockPc := if S.lockTry then .tryEarly wakeup else .enter wakeup

/-- `acl_fiber_mutex_lock` with its `fiber_mutex_lock_once`, or its `fiber_mutex_lock_try`. -/
def lockCode (S : Setting ι τ) (f : ι) (c n : χ) : LockPc → Instr ι χ ω
  | .tryEarly w => .tryThread (.locking c n .owner) (.locking c n (if S.hooked f then .enterLate w else .addEnter))
  | .enterLate w => .lock (.locking c n (.append w))
  | .enter w => .lock (.locking c n (.tryFirst w))
  | .tryFirst w => .tryThread (.locking c n .taken) (.locking c n (if S.hooked f then .append w else .threadRelease))
  | .append w => .append fun pos => .locking c n (.trySecond w pos)
  | .trySecond w pos => .tryThread (.locking c n (.delete pos)) (.locking c n (.release w))
  | .delete pos => .delete pos (.locking c n .taken)
  | .release w => .unlock (.locking c n (.switch w))
  | .switch w => .suspend (.locking c n (.waiting w))
  | .waiting w => .jump (.locking c n (if 5 < w + 1 then .delay else S.loop (w + 1)))
  | .delay => .suspend (.locking c n .delayed)
  | .delayed => .jump (.locking c n (S.loop 0))
  | .threadRelease => .unlock (.locking c n .addEnter)
  | .addEnter => .lock (.locking c n .add)
  | .add => .addThread (.locking c n .addRelease)
  | .addRelease => .unlock (.locking c n .block)
  | .block => .lockThread (.locking c n .owner)
  | .taken => .unlock (.locking c n .owner)
  | .owner => .setOwner (some f) (.locking c n (if S.hooked f then .fiber else .removeEnter))
  | .removeEnter => .lock (.locking c n .remove)
  | .remove => .removeThread (.locking c n .removeRelease)
  | .removeRelease => .unlock (.locking c n .fiber)
  | .fiber => .setFiber (S.me f) (.user n)

/-- `acl_fiber_mutex_unlock`. -/
def unlockCode (S : Setting ι τ) (f : ι) (c n : χ) : UnlockPc ι → Instr ι χ ω
  | .enter => .lock (.unlocking c n .pop)
  | .pop => .popFront fun fiber => .unlocking c n (.check fiber)
  | .check fiber => .check (.unlocking c n (.owner fiber))
  | .owner fiber => .setOwner none (.unlocking c n (.fiber fiber))
  | .fiber fiber => .setFiber none (.unlocking c n (.releaseThread fiber))
  | .releaseThread fiber => .unlockThread (.unlocking c n (.release fiber))
  | .release none => .unlock (.user n)
  | .release (some g) => .unlock (.unlocking c n (.wake g))
  | .wake g => if S.tid f = S.tid g then .ready g (.user n) else .send g (.user n)

/-- **The code.** -/
def code (S : Setting ι τ) (C : Client ι χ ω) (f : ι) : Control ι χ → Instr ι χ ω
  | .user c =>
    match C.action c with
    | .lock n => .jump (.locking c n (S.loop 0))
    | .unlock n => .jump (.unlocking c n .enter)
    | .work next => .work next
    | .returned => .exit
  | .locking c n pc => lockCode S f c n pc
  | .unlocking c n pc => unlockCode S f c n pc

def State.goto (s : State ι τ χ ω) (f : ι) (k : Control ι χ) : State ι τ χ ω :=
  { s with control := Function.update s.control f k }

def State.setStatus (s : State ι τ χ ω) (f : ι) (status : FiberStatus) : State ι τ χ ω :=
  { s with status := Function.update s.status f status }

/-- `f` leaves its thread to others. -/
def State.leave (S : Setting ι τ) (s : State ι τ χ ω) (f : ι) (status : FiberStatus) : State ι τ χ ω :=
  { s.setStatus f status with running := Function.update s.running (S.tid f) none }

/-- **What an instruction does**; where it does not return yet, nothing. -/
def exec (S : Setting ι τ) (s : State ι τ χ ω) (f : ι) : Instr ι χ ω → Option (State ι τ χ ω)
  | .lock next => if s.lock = none then some { s.goto f next with lock := some f } else none
  | .unlock next => some { s.goto f next with lock := none }
  | .tryThread taken busy =>
    if s.threadLock = none then some { s.goto f taken with threadLock := some f } else some (s.goto f busy)
  | .lockThread next => if s.threadLock = none then some { s.goto f next with threadLock := some f } else none
  | .unlockThread next => some { s.goto f next with threadLock := none }
  | .append next => some { s.goto f (next s.waiters.length) with waiters := s.waiters ++ [f] }
  | .delete pos next => some { s.goto f next with waiters := arrayDelete s.waiters pos }
  | .popFront next => some { s.goto f (next s.waiters.head?) with waiters := arrayDelete s.waiters 0 }
  | .check next => some { s.goto f next with complained := s.complained || S.me f != s.fiber }
  | .setOwner owner next => some { s.goto f next with owner := owner }
  | .setFiber fiber next => some { s.goto f next with fiber := fiber }
  | .addThread next => some { s.goto f next with waitingThreads := s.waitingThreads ++ [f] }
  | .removeThread next =>
    some { s.goto f next with waitingThreads := arrayDelete s.waitingThreads (s.waitingThreads.idxOf f) }
  | .suspend next => some ((s.goto f next).leave S f .suspend)
  | .ready g next => some (if s.status g = .exiting then s.goto f next else (s.goto f next).setStatus g .ready)
  | .send g next => some { s.goto f next with box := Function.update s.box (S.tid g) (s.box (S.tid g) ++ [g]) }
  | .work next => some { s.goto f (.user (next s.data).1) with data := (next s.data).2 }
  | .jump next => some (s.goto f next)
  | .exit => some (s.leave S f .exiting)

/-- Where a fiber may give way: in its own code, and while it sends to another thread. -/
def Control.mayPause : Control ι χ → Bool
  | .user _ | .unlocking _ _ (.wake _) => true
  | _ => false

/-- Where a timer or an event wakes it. -/
def Control.mayAwake : Control ι χ → Bool
  | .user _ | .unlocking _ _ (.wake _) | .locking _ _ .delayed => true
  | _ => false

/-- A step; `some none` where the assertion of `fiber_waiting` fails. -/
def step (S : Setting ι τ) (C : Client ι χ ω) (s : State ι τ χ ω) : Label ι τ → Option (Option (State ι τ χ ω))
  | .run f => if s.running (S.tid f) = some f then (exec S s f (code S C f (s.control f))).map some else none
  | .pause f =>
    if s.running (S.tid f) = some f ∧ S.hooked f ∧ (s.control f).mayPause then some (some (s.leave S f .suspend)) else none
  | .awake f =>
    if s.status f = .suspend ∧ (s.control f).mayAwake then some (some (s.setStatus f .ready)) else none
  | .pick f =>
    if s.status f = .ready ∧ s.running (S.tid f) = none then
      some (some { s.setStatus f .running with running := Function.update s.running (S.tid f) (some f) })
    else none
  | .deliver th =>
    match s.running th, s.box th with
    | none, f :: rest =>
      if s.status f = .suspend then some (some { s.setStatus f .ready with box := Function.update s.box th rest })
      else some none
    | _, _ => none

/-- All fibers ready, and the mutex free. -/
def State.initial (C : Client ι χ ω) (data : ω) : State ι τ χ ω :=
  ⟨data, none, none, none, none, [], [], fun _ => [], fun _ => none, fun _ => .ready, fun f => .user (C.start f), false⟩

end Code

/-! ## The mutex as it is meant -/

/-- A mutex that is taken and given back at once. -/
structure Atomic (ι χ ω : Type) where
  data : ω
  owner : Option ι
  control : ι → χ

/-- A fiber moves on. `lock` returns when the mutex is free. -/
def Atomic.step {ι χ ω : Type} [DecidableEq ι] (C : Client ι χ ω) (s : Atomic ι χ ω) (f : ι) : Option (Atomic ι χ ω) :=
  match C.action (s.control f) with
  | .lock n => if s.owner = none then some { s with owner := some f, control := Function.update s.control f n } else none
  | .unlock n => some { s with owner := none, control := Function.update s.control f n }
  | .work next => some { s with data := (next s.data).2, control := Function.update s.control f (next s.data).1 }
  | .returned => none

end MutexCode

open MutexCode

/-- Fibers and threads that share a mutex. Its state is `none` once an assertion has failed. -/
def mutexCode {ι τ χ ω : Type} [DecidableEq ι] [DecidableEq τ] (S : Setting ι τ) (C : Client ι χ ω) (data : ω) :
    System (Option (State ι τ χ ω)) (Label ι τ) where
  init := some (.initial C data)
  step s e := s.bind fun s => step S C s e

/-- The same programs with a mutex as it is meant. -/
def atomicMutex {ι χ ω : Type} [DecidableEq ι] (C : Client ι χ ω) (data : ω) : System (Atomic ι χ ω) ι :=
  ⟨⟨data, none, C.start⟩, Atomic.step C⟩

end SocketAcl
