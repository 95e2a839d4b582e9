import SocketAcl.Spec.UserStore

/-!
# Redis handlers that read (`redisHandler.cpp`)

`handle_list_get` prints a part of a list, `handle_get_json` a user. Both are given what they read
from `std::cin`; how they read it is part of the console.

`LRANGE` counts negative bounds from the end and clamps what lies outside.
-/

namespace SocketAcl

/-! ## Lists -/

/-- A Redis list. Its length is a `long`. -/
structure RedisList where
  elements : List Bytes
  length_lt : elements.length < 2 ^ 63

namespace RedisList

/-- The index a bound of `LRANGE` stands for: a negative one counts from the end. -/
def index (list : RedisList) (n : Int32) : ℤ :=
  if n.toInt < 0 then list.elements.length + n.toInt else n.toInt

/-- `LRANGE`: the elements from one bound to the other, both included. -/
def lrange (list : RedisList) (start stop : Int32) : List Bytes :=
  (list.elements.take (list.index stop + 1).toNat).drop (list.index start).toNat

end RedisList

/-- What `handle_list_get` prints. -/
inductive ListLine
  /-- there are no elements -/
  | empty
  /-- what follows are the elements -/
  | heading
  /-- `Index {}: {}` -/
  | index (k : UInt64) (value : Bytes)
  /-- the list at the key could not be read -/
  | failed (key : Bytes)

/-- `handle_list_get`; `lrange` is what `redis_list::lrange` leaves in `list_values`, `none` where it returns
`false`. -/
def handleListGet (lrange : Bytes → Int32 → Int32 → Option (List Bytes)) (key : Bytes) (start stop : Int32) :
    List ListLine :=
  match lrange (cstr key) start stop with
  | none => [.failed key]
  | some listValues =>
    if listValues = [] then [.empty]
    else
      -- `start + i`, an `int` and a `size_t`
      .heading :: listValues.mapIdx fun i value => .index (UInt64.ofInt start.toInt + UInt64.ofNat i) (cstr value)

/-! ## Users -/

/-- How `handle_get_json` ends. -/
inductive Shown
  /-- `Name: {}, Age: {}, Email: {}` -/
  | user (user : User)
  /-- `e.what()` of a `std::exception` -/
  | caught (e : Failure)
  /-- no exception, and nothing that is defined -/
  | undefined
  deriving DecidableEq

/-- `handle_get_json`; for `others` see `jsonToUser`. -/
def handleGetJson (client : RedisClient) (others : ℕ → client.State → client.State) (key : Bytes) :
    StateM client.State Shown := do
  match ← (jsonToUser client others key).run with
  | .ok user => return .user user
  | .error .nullString => return .undefined
  | .error e => return .caught e

end SocketAcl
