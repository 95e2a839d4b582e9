import SocketAcl.Spec.Fiber

/-!
# Semaphores of fibers (`fiber_sem.c`)

A post hands its permit to the first fiber that waits: the number goes up and down again before that fiber
runs.

The history beside the fields of the record is not in the code and decides nothing.
-/

namespace SocketAcl

namespace FiberSem

/-- The ring of a semaphore. -/
inductive SemRing (κ : Type)
  | waiting (s : κ)
  deriving DecidableEq

inductive Op (κ : Type)
  | wait (s : κ)
  | trywait (s : κ)
  | post (s : κ)
  deriving DecidableEq

/-- What a call of `wait` or `trywait` has returned; whether it had been given a permit, and whether the fiber
was killed. -/
structure Answer (κ ι : Type) where
  fiber : ι
  op : Op κ
  result : ℤ
  permit : Bool
  canceled : Bool

/-- `ACL_FIBER_SEM`. -/
structure Sem (κ ι : Type) where
  /-- an `int` in the source: it stays below 2^31, as the permits a program has -/
  num : ℤ
  /-- `ACL_FIBER_SEM_F_ASYNC` -/
  async : Bool
  /-- history: the fibers whose call has returned with a permit, up to their `post` -/
  inside : List ι
  /-- history: the fibers that were given a permit and whose call has not returned -/
  admitted : List ι
  /-- history: how many permits were given to fibers that were told that they had none -/
  lost : ℕ
  /-- history: how often a fiber has posted that was not inside -/
  given : ℕ
  /-- history: the fibers that have asked for a permit, without those that were turned away -/
  asked : List ι
  /-- history: the fibers that were given one -/
  granted : List ι
  /-- history -/
  answers : List (Answer κ ι)

/-- `acl_fiber_sem_create2`. -/
def Sem.create {κ ι : Type} (num : ℤ) (async : Bool) : Sem κ ι := ⟨num, async, [], [], 0, 0, [], [], []⟩

variable {κ ι : Type} [DecidableEq κ] [DecidableEq ι]

abbrev SemCode (κ ι α : Type) := FiberCode (SemRing κ) (κ → Sem κ ι) (Op κ) ι α

/-- A write to the record of a semaphore. -/
def update (s : κ) (g : Sem κ ι → Sem κ ι) : SemCode κ ι Unit :=
  modify fun t => { t with obj := Function.update t.obj s (g (t.obj s)) }

/-- A call returns. -/
def returns (op : Op κ) (s : κ) (result : ℤ) (permit : Bool) : SemCode κ ι Unit := do
  let curr ← fiberRunning
  let canceled := (← get).killed curr
  update s fun l => { l with answers := l.answers ++ [⟨curr, op, result, permit, canceled⟩] }

/-- A permit is there. -/
def Sem.take (l : Sem κ ι) (f : ι) : Sem κ ι :=
  { l with num := l.num - 1, inside := l.inside ++ [f], asked := l.asked ++ [f], granted := l.granted ++ [f] }

/-- `acl_fiber_sem_wait`, up to its `acl_fiber_switch` if it comes to it. -/
def semWait (s : κ) : SemCode κ ι Unit := do
  let curr ← fiberRunning
  if 0 < ((← get).obj s).num then
    update s fun l => l.take curr
    returns (.wait s) s ((← get).obj s).num true
  else if (← get).killed curr then returns (.wait s) s (-1) false
  else
    update s fun l => { l with asked := l.asked ++ [curr] }
    fiberWait (.waiting s) (.wait s)

/-- `acl_fiber_sem_wait`, behind its `acl_fiber_switch`. -/
def semResume (s : κ) : SemCode κ ι Unit := do
  let curr ← fiberRunning
  detach (.me curr)
  let canceled := (← get).killed curr
  let permit := decide (curr ∈ ((← get).obj s).admitted)
  modify fun t => t.setPlace curr .user
  update s fun l =>
    { l with
      admitted := l.admitted.erase curr
      inside := if canceled then l.inside else l.inside ++ [curr]
      lost := if canceled ∧ curr ∈ l.admitted then l.lost + 1 else l.lost }
  let num := ((← get).obj s).num
  returns (.wait s) s (if canceled then -1 else num) permit

/-- `acl_fiber_sem_trywait`. -/
def semTrywait (s : κ) : SemCode κ ι Unit := do
  let curr ← fiberRunning
  if 0 < ((← get).obj s).num then
    update s fun l => l.take curr
    returns (.trywait s) s ((← get).obj s).num true
  else returns (.trywait s) s (-1) false

/-- The permit of a post. -/
def Sem.post (l : Sem κ ι) (f : ι) : Sem κ ι :=
  { l with num := l.num + 1, inside := l.inside.erase f, given := if f ∈ l.inside then l.given else l.given + 1 }

/-- The permit goes to a fiber that waits. -/
def Sem.hand (l : Sem κ ι) (f : ι) : Sem κ ι :=
  { l with num := l.num - 1, admitted := l.admitted ++ [f], granted := l.granted ++ [f] }

/-- `acl_fiber_sem_post`. -/
def semPost (s : κ) : SemCode κ ι ℤ := do
  let curr ← fiberRunning
  update s fun l => l.post curr
  match (← first (.ring (.waiting s))) with
  | none => pure ((← get).obj s).num
  | some ready =>
    detach (.me ready)
    fiberReady ready
    let num := ((← get).obj s).num
    update s fun l => l.hand ready
    if ((← get).obj s).async = false then fiberYield
    pure num

def code (κ ι : Type) [DecidableEq κ] [DecidableEq ι] : SyncCode (SemRing κ) (κ → Sem κ ι) (Op κ) ι where
  call
    | .wait s => semWait s
    | .trywait s => semTrywait s
    | .post s => discard (semPost s)
  resume
    | .wait s => semResume s
    | _ => Code.fail

end FiberSem

/-- Any fibers of one thread, and the semaphores they share, with their first numbers. -/
def fiberSem (κ ι : Type) [DecidableEq κ] [DecidableEq ι] (num : κ → ℤ) (async : κ → Bool) :
    System (Option (Thread (κ → FiberSem.Sem κ ι) (FiberSem.Op κ) ι × Memory (Node (Head (FiberSem.SemRing κ)) ι)))
      (FiberLabel (FiberSem.Op κ) ι) :=
  (FiberSem.code κ ι).thread memoryExec (Thread.initial fun s => .create (num s) (async s)) Memory.initial

end SocketAcl
