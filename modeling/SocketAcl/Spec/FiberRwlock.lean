import SocketAcl.Spec.Fiber

/-!
# Reader-writer locks of fibers (`fiber_lock.c`)

Readers come in until a writer has the lock or waits for it. A writer that unlocks lets in all readers that
wait, or else the first writer; the last reader lets in the first writer. Who waits is made ready with the
lock already counted as its own.

The history beside the fields of the record is not in the code and decides nothing.
-/

namespace SocketAcl

namespace FiberRwlock

/-- The rings of a lock. -/
inductive RwRing (κ : Type)
  | rwaiting (lk : κ)
  | wwaiting (lk : κ)
  deriving DecidableEq

inductive Op (κ : Type)
  | rlock (lk : κ)
  | tryrlock (lk : κ)
  | wlock (lk : κ)
  | trywlock (lk : κ)
  | runlock (lk : κ)
  | wunlock (lk : κ)
  deriving DecidableEq

/-- `ACL_FIBER_RWLOCK`. -/
structure Rwlock (ι : Type) where
  /-- an `int` in the source: it stays below 2^31, as the fibers that read -/
  readers : ℤ
  writer : Option ι
  /-- history: the readers whose call has returned 0, up to their `runlock` -/
  reading : List ι
  /-- history: the readers that were let in and whose call has not returned -/
  admitted : List ι
  /-- history: how many readers were let in and told that they were not -/
  lostReaders : ℕ
  /-- history: the writer whose call has returned 0, up to its `wunlock` -/
  writing : List ι
  /-- history: the writer that was let in and whose call has not returned -/
  promised : Option ι
  /-- history: a writer was let in and told that it was not -/
  lostWriter : Bool
  /-- history: the fibers that have called `wlock`, and those that `trywlock` let in -/
  asked : List ι
  /-- history: the writers so far -/
  granted : List ι

/-- `acl_fiber_rwlock_create`. -/
def Rwlock.create {ι : Type} : Rwlock ι := ⟨0, none, [], [], 0, [], none, false, [], []⟩

variable {κ ι : Type} [DecidableEq κ] [DecidableEq ι]

abbrev RwCode (κ ι α : Type) := FiberCode (RwRing κ) (κ → Rwlock ι) (Op κ) ι α

/-- A write to the record of a lock. -/
def update (lk : κ) (g : Rwlock ι → Rwlock ι) : RwCode κ ι Unit :=
  modify fun t => { t with obj := Function.update t.obj lk (g (t.obj lk)) }

/-- `__rlock`, up to its `acl_fiber_switch` if it comes to it. -/
def rlock (lk : κ) (block : Bool) : RwCode κ ι (Option ℤ) := do
  let curr ← fiberRunning
  let writing ← first (.ring (.wwaiting lk))
  if ((← get).obj lk).writer = none ∧ writing = none then
    update lk fun l => { l with readers := l.readers + 1, reading := l.reading ++ [curr] }
    pure (some 0)
  else if block = false then pure (some (-1))
  else
    fiberWait (.rwaiting lk) (.rlock lk)
    pure none

/-- `__rlock`, behind its `acl_fiber_switch`. -/
def rlockResume (lk : κ) : RwCode κ ι ℤ := do
  let curr ← fiberRunning
  detach (.me curr)
  let canceled := (← get).killed curr
  modify fun t => t.setPlace curr .user
  update lk fun l =>
    { l with
      admitted := l.admitted.erase curr
      reading := if canceled then l.reading else l.reading ++ [curr]
      lostReaders := if canceled ∧ curr ∈ l.admitted then l.lostReaders + 1 else l.lostReaders }
  if canceled then pure (-1) else pure 0

/-- `__wlock`, up to its `acl_fiber_switch` if it comes to it. -/
def wlock (lk : κ) (block : Bool) : RwCode κ ι (Option ℤ) := do
  let curr ← fiberRunning
  if ((← get).obj lk).writer = none ∧ ((← get).obj lk).readers = 0 then
    update lk fun l =>
      { l with
        writer := some curr, writing := l.writing ++ [curr], asked := l.asked ++ [curr]
        granted := l.granted ++ [curr] }
    pure (some 0)
  else if block = false then pure (some (-1))
  else
    update lk fun l => { l with asked := l.asked ++ [curr] }
    fiberWait (.wwaiting lk) (.wlock lk)
    pure none

/-- `__wlock`, behind its `acl_fiber_switch`. -/
def wlockResume (lk : κ) : RwCode κ ι ℤ := do
  let curr ← fiberRunning
  detach (.me curr)
  let canceled := (← get).killed curr
  modify fun t => t.setPlace curr .user
  update lk fun l =>
    { l with
      promised := if l.promised = some curr then none else l.promised
      writing := if canceled then l.writing else l.writing ++ [curr]
      lostWriter := l.lostWriter || canceled && l.promised == some curr }
  if canceled then pure (-1) else pure 0

/-- The first writer that waits is let in: `ring_detach(&lk->wwaiting)`, `lk->writer = fiber`, `FIBER_READY`. -/
def letWriterIn (lk : κ) (fiber : ι) : RwCode κ ι Unit := do
  detach (.head (.ring (.wwaiting lk)))
  update lk fun l => { l with writer := some fiber, promised := some fiber, granted := l.granted ++ [fiber] }
  fiberReady fiber

/-- `acl_fiber_rwlock_runlock`. -/
def runlock (lk : κ) : RwCode κ ι Unit := do
  let curr ← fiberRunning
  update lk fun l => { l with readers := l.readers - 1, reading := l.reading.erase curr }
  if ((← get).obj lk).readers = 0 then
    match (← first (.ring (.wwaiting lk))) with
    | none => pure ()
    | some fiber =>
      letWriterIn lk fiber
      fiberYield

/-- The loop of `acl_fiber_rwlock_wunlock`, with the turns it may take; it counts them. -/
def letReadersIn (lk : κ) : ℕ → RwCode κ ι ℕ
  | 0 => Code.fail
  | turns + 1 => do
    match (← first (.ring (.rwaiting lk))) with
    | none => pure 0
    | some fiber =>
      detach (.head (.ring (.rwaiting lk)))
      update lk fun l => { l with readers := l.readers + 1, admitted := l.admitted ++ [fiber] }
      fiberReady fiber
      let n ← letReadersIn lk turns
      pure (n + 1)

/-- `acl_fiber_rwlock_wunlock`. -/
def wunlock (lk : κ) : RwCode κ ι Unit := do
  let curr ← fiberRunning
  if ((← get).obj lk).writer = none then Code.fail
  update lk fun l => { l with writer := none, writing := l.writing.erase curr }
  if ((← get).obj lk).readers ≠ 0 then Code.fail
  let waiting ← size (.ring (.rwaiting lk))
  let n ← letReadersIn lk (waiting.toNat + 1)
  let n ←
    if ((← get).obj lk).readers = 0 then
      match (← first (.ring (.wwaiting lk))) with
      | none => pure n
      | some fiber => do
        letWriterIn lk fiber
        pure (n + 1)
    else pure n
  if 0 < n then fiberYield

def code (κ ι : Type) [DecidableEq κ] [DecidableEq ι] : SyncCode (RwRing κ) (κ → Rwlock ι) (Op κ) ι where
  call
    | .rlock lk => discard (rlock lk true)
    | .tryrlock lk => discard (rlock lk false)
    | .wlock lk => discard (wlock lk true)
    | .trywlock lk => discard (wlock lk false)
    | .runlock lk => runlock lk
    | .wunlock lk => wunlock lk
  resume
    | .rlock lk => discard (rlockResume lk)
    | .wlock lk => discard (wlockResume lk)
    | _ => Code.fail

end FiberRwlock

/-- Any fibers of one thread, and the reader-writer locks they share. -/
def fiberRwlock (κ ι : Type) [DecidableEq κ] [DecidableEq ι] :
    System (Option (Thread (κ → FiberRwlock.Rwlock ι) (FiberRwlock.Op κ) ι ×
      Memory (Node (Head (FiberRwlock.RwRing κ)) ι))) (FiberLabel (FiberRwlock.Op κ) ι) :=
  (FiberRwlock.code κ ι).thread memoryExec (Thread.initial fun _ => .create) Memory.initial

end SocketAcl
