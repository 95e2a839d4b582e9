import SocketAcl.Lib.Prog
import SocketAcl.Lib.System
import SocketAcl.Spec.Ring

/-!
# The fibers of a thread (`fiber.c`)

One thread's scheduler: the ready fibers wait in a ring, a fiber that gives way leaves the thread to the first
of them, one that has ended lies in the ring of the dead until its memory is used again.

The code gives its commands to the rings (`RingCommand`); what it keeps elsewhere is `Thread`. Between two
calls of the library a fiber runs code of its own, which is left open: a label is what it does next, or what
an event does to a fiber that sleeps.

Left out are signals other than `acl_fiber_kill`, the cache limit of the dead and their freeing at the end of
`acl_fiber_schedule`, and the events and timers that wake a fiber.
-/

namespace SocketAcl

/-- The heads of a thread's rings, and those of the objects its fibers wait for. -/
inductive Head (η : Type)
  | ready
  | dead
  | ring (r : η)
  deriving DecidableEq

/-- What the code asks of the rings. -/
inductive RingCommand (η ι : Type)
  | detach (x : Node (Head η) ι)
  | prepend (r : Head η) (f : ι)
  | popHead (r : Head η)
  /-- `FIRST_FIBER` -/
  | first (r : Head η)
  | size (r : Head η)
  /-- the memory of a fiber that is allocated -/
  | calloc (f : ι)

/-- What the rings answer. -/
abbrev RingCommand.Answer {η ι : Type} : RingCommand η ι → Type
  | detach _ | prepend _ _ | calloc _ => Unit
  | popHead _ | first _ => Option ι
  | size _ => ℤ

section Rings

variable {η ι : Type} [DecidableEq η] [DecidableEq ι]

/-- `RING_TO_FIBER`: undefined for a head. -/
def ringToFiber : Node (Head η) ι → Option ι
  | .me f => some f
  | .head _ => none

/-- `FIRST_FIBER`. -/
def firstFiber (m : Memory (Node (Head η) ι)) (r : Head η) : Option (Option ι) :=
  if (m (.head r)).succ = some (.head r) then some none
  else do
    let succ ← (m (.head r)).succ
    let f ← ringToFiber succ
    some (some f)

/-- **The commands, in memory.** -/
def memoryExec : Interp (RingCommand η ι) RingCommand.Answer (Memory (Node (Head η) ι))
  | .detach x, m => (ringDetach m x).map ((), ·)
  | .prepend r f, m => (ringPrepend m (.head r) (.me f)).map ((), ·)
  | .popHead r, m => do
    let (m, popped) ← ringPopHead m (.head r)
    match popped with
    | none => some (none, m)
    | some x => do
      let f ← ringToFiber x
      some (some f, m)
  | .first r, m => (firstFiber m r).map (·, m)
  | .size r, m => some (ringSize m (.head r), m)
  | .calloc f, m => some ((), Function.update m (.me f) .zero)

end Rings

/-- `fiber->status`. -/
inductive FiberStatus
  | none
  | ready
  | suspend
  | running
  | exiting
  deriving DecidableEq

/-- Where a fiber's own code stands. -/
inductive Place (Op : Type)
  /-- there is no such fiber -/
  | unborn
  /-- in its own code, which may have given way or gone to sleep -/
  | user
  /-- in the `acl_fiber_switch` of an operation -/
  | inside (op : Op)
  /-- it has ended -/
  | gone
  deriving DecidableEq

/-- `__thread_fiber` and its fibers, with the objects the fibers share. -/
structure Thread (Obj Op ι : Type) where
  /-- null where `original` runs -/
  running : Option ι
  status : ι → FiberStatus
  /-- `FIBER_F_KILLED` -/
  killed : ι → Bool
  place : ι → Place Op
  obj : Obj

/-- Code of the library. -/
abbrev FiberCode (η Obj Op ι : Type) (α : Type) := Code (RingCommand η ι) RingCommand.Answer (Thread Obj Op ι) α

section Scheduler

variable {η Obj Op ι : Type} [DecidableEq ι]

def Thread.setStatus (t : Thread Obj Op ι) (f : ι) (status : FiberStatus) : Thread Obj Op ι :=
  { t with status := Function.update t.status f status }

def Thread.setPlace (t : Thread Obj Op ι) (f : ι) (place : Place Op) : Thread Obj Op ι :=
  { t with place := Function.update t.place f place }

def detach (x : Node (Head η) ι) : FiberCode η Obj Op ι Unit := Code.perform (RingCommand.detach x)
def prepend (r : Head η) (f : ι) : FiberCode η Obj Op ι Unit := Code.perform (RingCommand.prepend r f)
def popHead (r : Head η) : FiberCode η Obj Op ι (Option ι) := Code.perform (RingCommand.popHead r)
def first (r : Head η) : FiberCode η Obj Op ι (Option ι) := Code.perform (RingCommand.first r)
def size (r : Head η) : FiberCode η Obj Op ι ℤ := Code.perform (RingCommand.size r)
def calloc (f : ι) : FiberCode η Obj Op ι Unit := Code.perform (RingCommand.calloc f)

/-- `acl_fiber_running`, where a fiber runs. -/
def fiberRunning : FiberCode η Obj Op ι ι := do
  match (← get).running with
  | some f => pure f
  | none => Code.fail

/-- `acl_fiber_ready`. -/
def fiberReady (f : ι) : FiberCode η Obj Op ι Unit := do
  if (← get).status f ≠ .exiting then
    detach (.me f)
    modify fun t => t.setStatus f .ready
    prepend .ready f

/-- The states `fiber_swap` leaves behind; `none` is `original`, whose state nothing reads. -/
def fiberSwap (source target : Option ι) : FiberCode η Obj Op ι Unit := do
  match source with
  | none => pure ()
  | some f =>
    if (← get).status f = .exiting then prepend .dead f
    else modify fun t => t.setStatus f .suspend
  match target with
  | none => pure ()
  | some g =>
    if (← get).status g ≠ .exiting then modify fun t => t.setStatus g .running

/-- `acl_fiber_switch`. -/
def fiberSwitch : FiberCode η Obj Op ι Unit := do
  let current := (← get).running
  let fiber ← popHead .ready
  modify fun t => { t with running := fiber }
  fiberSwap current fiber

/-- `acl_fiber_yield`. -/
def fiberYield : FiberCode η Obj Op ι Unit := do
  if (← size .ready) ≠ 0 then
    let current ← fiberRunning
    modify fun t => t.setStatus current .none
    fiberReady current
    fiberSwitch

/-- `acl_fiber_create2`: the memory is that of a dead fiber, or else new memory. -/
def fiberCreate (new : ι) : FiberCode η Obj Op ι Unit := do
  let f ← match (← popHead .dead) with
    | none => do
      calloc new
      pure new
    | some f => pure f
  modify fun t => { (t.setStatus f .none).setPlace f .user with killed := Function.update t.killed f false }
  fiberReady f

/-- `fiber_exit`. -/
def fiberExit : FiberCode η Obj Op ι Unit := do
  let current ← fiberRunning
  modify fun t => (t.setStatus current .exiting).setPlace current .gone
  fiberSwitch

/-- `acl_fiber_kill`. -/
def fiberKill (f : ι) : FiberCode η Obj Op ι Unit := do
  modify fun t => { t with killed := Function.update t.killed f true }
  if (← get).status f = .suspend then fiberReady f

/-- One turn of the loop in `acl_fiber_schedule`. -/
def fiberSchedule : FiberCode η Obj Op ι Unit := do
  match (← popHead .ready) with
  | none => pure ()
  | some f =>
    modify fun t => { t.setStatus f .ready with running := some f }
    fiberSwap none (some f)

/-- An operation that waits: behind the others in the ring `r`, until somebody makes the fiber ready. -/
def fiberWait (r : η) (op : Op) : FiberCode η Obj Op ι Unit := do
  let current ← fiberRunning
  prepend (.ring r) current
  modify fun t => t.setPlace current (.inside op)
  fiberSwitch

/-- The operations on shared objects: up to the `acl_fiber_switch` in them, if they come to it, and behind it. -/
structure SyncCode (η Obj Op ι : Type) where
  call : Op → FiberCode η Obj Op ι Unit
  resume : Op → FiberCode η Obj Op ι Unit

/-- What happens next. -/
inductive FiberLabel (Op ι : Type)
  /-- `go`; the memory that `mem_calloc` would return -/
  | create (new : ι)
  | yield
  /-- the fiber goes to sleep, or waits for something else -/
  | sleep
  /-- a timer or an event makes a fiber ready that is not in an operation -/
  | wake (f : ι)
  | kill (f : ι)
  /-- the fiber's function returns -/
  | exit
  /-- `acl_fiber_schedule` goes on -/
  | schedule
  | call (op : Op)
  /-- an operation goes on behind its `acl_fiber_switch` -/
  | resume

def Place.isUser : Place Op → Bool
  | .user => true
  | _ => false

def Place.isInside : Place Op → Bool
  | .inside _ => true
  | _ => false

def Place.isUnborn : Place Op → Bool
  | .unborn => true
  | _ => false

/-- What can happen next: it is up to the running fiber, if there is one. -/
def Thread.enabled (t : Thread Obj Op ι) : FiberLabel Op ι → Bool
  | .create new => t.running.all (fun f => (t.place f).isUser) && (t.place new).isUnborn
  | .wake f => t.running.all (fun g => (t.place g).isUser) && (t.place f).isUser && t.running != some f
  | .schedule => t.running.isNone
  | .kill f => t.running.any (fun g => (t.place g).isUser) && !(t.place f).isUnborn
  | .yield | .sleep | .exit | .call _ => t.running.any fun f => (t.place f).isUser
  | .resume => t.running.any fun f => (t.place f).isInside

def SyncCode.exec (code : SyncCode η Obj Op ι) : FiberLabel Op ι → FiberCode η Obj Op ι Unit
  | .create new => fiberCreate new
  | .yield => fiberYield
  | .sleep => fiberSwitch
  | .wake f => fiberReady f
  | .kill f => fiberKill f
  | .exit => fiberExit
  | .schedule => fiberSchedule
  | .call op => code.call op
  | .resume => do
    let current ← fiberRunning
    match (← get).place current with
    | .inside op => code.resume op
    | _ => Code.fail

/-- **The thread**, over some rings. Its state is `none` once it has failed. -/
def SyncCode.thread {σ : Type} (code : SyncCode η Obj Op ι) (rings : Interp (RingCommand η ι) RingCommand.Answer σ)
    (t₀ : Thread Obj Op ι) (s₀ : σ) : System (Option (Thread Obj Op ι × σ)) (FiberLabel Op ι) where
  init := some (t₀, s₀)
  step s e := s.bind fun current =>
    if current.1.enabled e then
      some (((code.exec e current.1).run rings current.2).map fun result => (result.1.2, result.2))
    else none

end Scheduler

/-- Before the first fiber is created. -/
def Thread.initial {Obj Op ι : Type} (obj : Obj) : Thread Obj Op ι :=
  ⟨none, fun _ => .none, fun _ => false, fun _ => .unborn, obj⟩

/-- All heads initialised, no fiber allocated. -/
def Memory.initial {η ι : Type} : Memory (Node (Head η) ι)
  | .head r => ⟨some (.head r), some (.head r), some (.head r), 0⟩
  | .me _ => .zero

end SocketAcl
