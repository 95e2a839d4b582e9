import SocketAcl.Spec.Console

/-!
# The Redis console (`main.cpp`, `redisHandler.cpp`)

The command loop of the Redis program and the input loops of its handlers, one iteration at a time.
A handler without a loop is part of the iteration that enters it.

What Redis answers is printed and decides nothing else. What a handler prints of it is in
`handleListGet` and `handleGetJson`.
-/

namespace SocketAcl

namespace Redis

/-- The commands the handlers send. -/
inductive Command
  | set (key value : Bytes)
  | expire (key : Bytes) (ttl : Int32)
  | get (key : Bytes)
  | lpush (key value : Bytes)
  | rpush (key value : Bytes)
  | lrange (key : Bytes) (start stop : Int32)
  | hset (key field value : Bytes)
  /-- the members with their scores, as they were typed -/
  | zadd (key : Bytes) (members : List (Bytes × Bytes))
  | jsonSet (key : Bytes) (user : User)
  /-- the three requests of `json_to_user` -/
  | jsonGet (key : Bytes)

/-- What the variables hold that are not initialised. -/
structure Locals where
  action : UInt8
  start : Int32
  stop : Int32
  age : Int32

/-- A handler. -/
abbrev Handler (α : Type) := StateM (Console Command) α

def send (command : Command) : Handler Unit := modify fun s => s.send command

/-! ## Handlers without a loop -/

def handleString : Handler Unit := do
  let key ← Console.getString []
  let value ← Console.getString []
  let ttl ← Console.getInt (-1)
  send (.set (cstr key) (cstr value))
  if 0 < ttl then send (.expire (cstr key) ttl)

def handleGet : Handler Unit := do
  let key ← Console.getString []
  send (.get (cstr key))

def handleListGet (locals : Locals) : Handler Unit := do
  let key ← Console.getString []
  let start ← Console.getInt locals.start
  let stop ← Console.getInt locals.stop
  send (.lrange (cstr key) start stop)

def handleSetJson (locals : Locals) : Handler Unit := do
  let key ← Console.getString []
  let name ← Console.getString []
  let age ← Console.getInt locals.age
  let email ← Console.getString []
  send (.jsonSet key ⟨name, age, email⟩)

def handleGetJson : Handler Unit := do
  let key ← Console.getString []
  send (.jsonGet key)

/-! ## Loops -/

/-- Where the program stands: at the top of one of its loops. -/
inductive Point
  /-- the command loop of `main` -/
  | command
  /-- the loop of `handle_list_push` -/
  | push (key : Bytes) (action : UInt8) (value : Bytes)
  /-- the loop of `handle_hash` -/
  | hash (key field value : Bytes)
  /-- the outer loop of `handle_zset` -/
  | zset (key value score : Bytes) (members : List (Bytes × Bytes))
  /-- its inner loop -/
  | score (key value score : Bytes) (members : List (Bytes × Bytes))

structure State where
  point : Point
  console : Console Command

/-- `members[value] = score`. -/
def setMember (value score : Bytes) (members : List (Bytes × Bytes)) : List (Bytes × Bytes) :=
  members.filter (fun m => m.1 ≠ value) ++ [(value, score)]

/-- `handle_list_push`, up to its loop. -/
def handleListPush (locals : Locals) : Handler Point := do
  let key ← Console.getString []
  let action ← Console.getChar locals.action
  return .push key action []

/-- `handle_hash`, up to its loop. -/
def handleHash : Handler Point := do
  let key ← Console.getString []
  return .hash key [] []

/-- `handle_zset`, up to its loop. -/
def handleZset : Handler Point := do
  let key ← Console.getString []
  return .zset key [] [] []

/-- A handler without a loop, and back to the command loop. -/
def andBack (handler : Handler Unit) : Handler Point := do
  handler
  return .command

/-- What a command other than `exit` does, up to the next loop. -/
def dispatch (locals : Locals) (command : Bytes) : Handler Point :=
  if command = ascii "set" then andBack handleString
  else if command = ascii "get" then andBack handleGet
  else if command = ascii "list_push" then handleListPush locals
  else if command = ascii "list_get" then andBack (handleListGet locals)
  else if command = ascii "hash" then handleHash
  else if command = ascii "zset" then handleZset
  else if command = ascii "set_json" then andBack (handleSetJson locals)
  else if command = ascii "get_json" then andBack handleGetJson
  -- no command
  else return .command

/-- The push of `handle_list_push`. -/
def push (key : Bytes) (action : UInt8) (value : Bytes) : Handler Unit :=
  if action = 0x4C ∨ action = 0x6C then send (.lpush (cstr key) (cstr value))
  else if action = 0x52 ∨ action = 0x72 then send (.rpush (cstr key) (cstr value))
  else return ()

/-- An iteration of `handle_list_push`. -/
def pushLoop (key : Bytes) (action : UInt8) (value : Bytes) : Handler Point := do
  let value ← Console.getString value
  if value = ascii "q" then return .command
  push key action value
  return .push key action value

/-- An iteration of `handle_hash`. -/
def hashLoop (key field value : Bytes) : Handler Point := do
  let field ← Console.getString field
  if field = ascii "q" then return .command
  let value ← Console.getString value
  send (.hset (cstr key) (cstr field) (cstr value))
  return .hash key field value

/-- An iteration of the outer loop of `handle_zset`. -/
def zsetLoop (key value score : Bytes) (members : List (Bytes × Bytes)) : Handler Point := do
  let value ← Console.getString value
  if value = ascii "q" then
    if members ≠ [] then send (.zadd (cstr key) members)
    return .command
  return .score key value score members

/-- An iteration of its inner loop. -/
def scoreLoop (key value score : Bytes) (members : List (Bytes × Bytes)) : Handler Point := do
  let score ← Console.getDouble score
  if (← get).cin.failed then
    modify Console.clearLine
    return .score key value score members
  return .zset key value score (setMember (cstr value) score members)

/-- The state an iteration leads to. -/
def advance (iteration : Handler Point) (console : Console Command) : State :=
  ⟨(iteration console).1, (iteration console).2⟩

/-- An iteration of the loop the program is in, `none` where it leaves the command loop. A handler that is entered
finds `locals`, which may be anything each time. -/
def step (locals : Console Command → Locals) (s : State) : Option State :=
  match s.point with
  | .command =>
    let read := s.console.getString []
    if read.1 = ascii "exit" then none else some (advance (dispatch (locals read.2) read.1) read.2)
  | .push key action value => some (advance (pushLoop key action value) s.console)
  | .hash key field value => some (advance (hashLoop key field value) s.console)
  | .zset key value score members => some (advance (zsetLoop key value score members) s.console)
  | .score key value score members => some (advance (scoreLoop key value score members) s.console)

/-- In front of the command loop. -/
def State.init (text : Bytes) : State := ⟨.command, .start text⟩

end Redis

end SocketAcl
