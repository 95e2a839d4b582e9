import Mathlib.Data.Int.Notation
import Mathlib.Logic.Function.Basic
import Mathlib.Tactic.Common

/-!
# Rings (`ring.c`)

The rings the fibers wait in. A `RING` lies inside the record it belongs to, so a pointer to one is the name
of that record; what all pointers lead to is one memory. An operation is undefined where it follows a null
pointer.
-/

namespace SocketAcl

/-- `RING`; a pointer may be null. -/
structure RING (ν : Type*) where
  succ : Option ν
  pred : Option ν
  parent : Option ν
  len : ℤ

/-- What `mem_calloc` leaves of a ring. -/
def RING.zero {ν : Type*} : RING ν := ⟨none, none, none, 0⟩

abbrev Memory (ν : Type*) := ν → RING ν

/-- The rings there are: the heads of queues, and `me` in each fiber. -/
inductive Node (η ι : Type*)
  | head (r : η)
  | me (f : ι)
  deriving DecidableEq

variable {ν : Type*} [DecidableEq ν]

def ringInit (m : Memory ν) (ring : ν) : Memory ν :=
  Function.update m ring ⟨some ring, some ring, some ring, 0⟩

def ringSize (m : Memory ν) (ring : ν) : ℤ := (m ring).len

/-- `ring_prepend`: insert `entry` before the head. -/
def ringPrepend (m : Memory ν) (ring entry : ν) : Option (Memory ν) := do
  let m := Function.update m entry
    { m entry with pred := (m ring).pred, succ := some ring, parent := (m ring).parent }
  let last ← (m ring).pred
  let m := Function.update m last { m last with succ := some entry }
  let m := Function.update m ring { m ring with pred := some entry }
  let parent ← (m ring).parent
  some (Function.update m parent { m parent with len := (m parent).len + 1 })

/-- `ring_detach`: nothing is done to what is its own parent or has no links. -/
def ringDetach (m : Memory ν) (entry : ν) : Option (Memory ν) :=
  if (m entry).parent = some entry then some m
  else
    match (m entry).succ, (m entry).pred with
    | some succ, some pred => do
      let m := Function.update m pred { m pred with succ := some succ }
      let m := Function.update m succ { m succ with pred := some pred }
      let parent ← (m entry).parent
      let m := Function.update m parent { m parent with len := (m parent).len - 1 }
      some (ringInit m entry)
    | _, _ => some m

/-- `ring_pop_head`: the entry behind the head, which is detached, or null. -/
def ringPopHead (m : Memory ν) (ring : ν) : Option (Memory ν × Option ν) :=
  if (m ring).succ = some ring then some (m, none)
  else do
    let succ ← (m ring).succ
    let m ← ringDetach m succ
    some (m, some succ)

end SocketAcl
