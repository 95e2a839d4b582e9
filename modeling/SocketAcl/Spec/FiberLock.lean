import SocketAcl.Spec.Fiber

/-!
# Locks of fibers (`fiber_lock.c`)

The lock is handed over: who unlocks it makes the first that waits its owner. The reader-writer lock lets
readers in until a writer waits.

Each object keeps a history beside the fields of its record, which the code does not have and which decides
nothing.
-/

namespace SocketAcl

namespace FiberLock

/-- The rings of a lock. -/
inductive LockRing (κ : Type)
  | me (lk : κ)
  | waiting (lk : κ)
  deriving DecidableEq

inductive Op (κ : Type)
  | lock (lk : κ)
  | trylock (lk : κ)
  | unlock (lk : κ)
  deriving DecidableEq

/-- What a call has returned; whether the lock was the fiber's then, and whether the fiber was killed. -/
structure Answer (κ ι : Type) where
  fiber : ι
  op : Op κ
  result : ℤ
  owns : Bool
  canceled : Bool

/-- `ACL_FIBER_LOCK`. -/
structure Locks (κ ι : Type) where
  owner : κ → Option ι
  /-- history: the fibers that have called `lock`, and those that `trylock` let in -/
  asked : κ → List ι
  /-- history: the owners so far -/
  granted : κ → List ι
  /-- history: the fibers whose call has returned with the lock theirs, up to their `unlock` -/
  inside : κ → List ι
  /-- history -/
  answers : List (Answer κ ι)

variable {κ ι : Type} [DecidableEq κ] [DecidableEq ι]

abbrev LockCode (κ ι α : Type) := FiberCode (LockRing κ) (Locks κ ι) (Op κ) ι α

def Locks.asks (l : Locks κ ι) (lk : κ) (f : ι) : Locks κ ι :=
  { l with asked := Function.update l.asked lk (l.asked lk ++ [f]) }

/-- `lk->owner = f`. -/
def Locks.setOwner (l : Locks κ ι) (lk : κ) (f : Option ι) : Locks κ ι :=
  { l with owner := Function.update l.owner lk f, granted := Function.update l.granted lk (l.granted lk ++ f.toList) }

/-- A call returns. -/
def returns (op : Op κ) (lk : κ) (result : ℤ) : LockCode κ ι Unit := do
  let curr ← fiberRunning
  modify fun t =>
    let owns := t.obj.owner lk == some curr
    { t.setPlace curr .user with obj :=
      { t.obj with
        inside := if owns then Function.update t.obj.inside lk (t.obj.inside lk ++ [curr]) else t.obj.inside
        answers := t.obj.answers ++ [⟨curr, op, result, owns, t.killed curr⟩] } }

/-- `__lock`, up to its `acl_fiber_switch` if it comes to it. -/
def lock (lk : κ) (block : Bool) : LockCode κ ι (Option ℤ) := do
  let curr ← fiberRunning
  if (← get).obj.owner lk = none then
    modify fun t => { t with obj := t.obj.setOwner lk (some curr) }
    pure (some 0)
  else if (← get).obj.owner lk = some curr then Code.fail
  else if block = false then pure (some (-1))
  else
    fiberWait (.waiting lk) (.lock lk)
    pure none

/-- `__lock`, behind its `acl_fiber_switch`. -/
def lockResume (lk : κ) : LockCode κ ι ℤ := do
  let curr ← fiberRunning
  detach (.me curr)
  if (← get).obj.owner lk = some curr then pure 0 else pure (-1)

/-- `acl_fiber_lock_lock`. -/
def lockLock (lk : κ) : LockCode κ ι Unit := do
  let curr ← fiberRunning
  modify fun t => { t with obj := t.obj.asks lk curr }
  match (← lock lk true) with
  | some result => returns (.lock lk) lk result
  | none => pure ()

/-- `acl_fiber_lock_trylock`. -/
def lockTrylock (lk : κ) : LockCode κ ι Unit := do
  let curr ← fiberRunning
  match (← lock lk false) with
  | some result =>
    if result = 0 then modify fun t => { t with obj := t.obj.asks lk curr }
    returns (.trylock lk) lk (if result ≠ 0 then 0 else -1)
  | none => pure ()

/-- `acl_fiber_lock_unlock`. -/
def lockUnlock (lk : κ) : LockCode κ ι Unit := do
  let curr ← fiberRunning
  if (← get).obj.owner lk = none then Code.fail
  if (← get).obj.owner lk ≠ some curr then Code.fail
  modify fun t =>
    { t with obj := { t.obj with inside := Function.update t.obj.inside lk ((t.obj.inside lk).erase curr) } }
  detach (.head (.ring (.me lk)))
  let ready ← first (.ring (.waiting lk))
  modify fun t => { t with obj := t.obj.setOwner lk ready }
  match ready with
  | none => pure ()
  | some f =>
    detach (.me f)
    fiberReady f
    fiberYield

def code (κ ι : Type) [DecidableEq κ] [DecidableEq ι] : SyncCode (LockRing κ) (Locks κ ι) (Op κ) ι where
  call
    | .lock lk => lockLock lk
    | .trylock lk => lockTrylock lk
    | .unlock lk => lockUnlock lk
  resume
    | .lock lk => do
      let result ← lockResume lk
      returns (.lock lk) lk result
    | _ => Code.fail

end FiberLock

/-- Any fibers of one thread, and the locks they share. -/
def fiberLock (κ ι : Type) [DecidableEq κ] [DecidableEq ι] :
    System (Option (Thread (FiberLock.Locks κ ι) (FiberLock.Op κ) ι × Memory (Node (Head (FiberLock.LockRing κ)) ι)))
      (FiberLabel (FiberLock.Op κ) ι) :=
  (FiberLock.code κ ι).thread memoryExec (Thread.initial ⟨fun _ => none, fun _ => [], fun _ => [], fun _ => [], []⟩)
    Memory.initial

end SocketAcl
