import SocketAcl.Spec.Console

/-!
# The MySQL console (`main.cpp`, `mysql_functions.cpp`)

The menu of the MySQL program, one iteration of its loop at a time. Its variables live outside the
loop, and three of them are not initialised.

What MySQL answers is printed and decides nothing else.
-/

namespace SocketAcl

namespace MySql

/-- The statements of `mysql_functions.cpp` that the menu issues. -/
inductive Statement
  /-- `INSERT INTO test_tbl(name, age) VALUES(:name, :age)` -/
  | insert (name : Bytes) (age : Int32)
  /-- `select * from test_tbl` -/
  | select
  /-- `UPDATE test_tbl SET name=:name, age=:age WHERE id=:id` -/
  | update (id : Int32) (name : Bytes) (age : Int32)
  /-- `DELETE FROM test_tbl WHERE id=:id` -/
  | delete (id : Int32)

structure State where
  action : UInt8
  name : Bytes
  id : Int32
  age : Int32
  console : Console Statement

/-- In front of the loop; `action`, `id` and `age` hold anything. -/
def State.init (text : Bytes) (action : UInt8) (id age : Int32) : State :=
  ⟨action, [], id, age, .start text⟩

namespace State

/-- `std::cin >> action`. -/
def readAction (s : State) : State :=
  { s with action := (s.console.getChar s.action).1, console := (s.console.getChar s.action).2 }

def readName (s : State) : State :=
  { s with name := (s.console.getString s.name).1, console := (s.console.getString s.name).2 }

def readId (s : State) : State :=
  { s with id := (s.console.getInt s.id).1, console := (s.console.getInt s.id).2 }

def readAge (s : State) : State :=
  { s with age := (s.console.getInt s.age).1, console := (s.console.getInt s.age).2 }

def send (statement : Statement) (s : State) : State := { s with console := s.console.send statement }

end State

/-- `tbl_insert`: the name goes in as the C string at `name.data()`. -/
def tblInsert (name : Bytes) (age : Int32) : Statement := .insert (cstr name) age

def tblUpdate (id : Int32) (newName : Bytes) (newAge : Int32) : Statement := .update id (cstr newName) newAge

/-- An iteration of the menu, `none` for `return 0`. -/
def menu (s : State) : Option State :=
  let s := s.readAction
  if s.action = 0x69 then
    let s := s.readName.readAge
    some (s.send (tblInsert s.name s.age))
  else if s.action = 0x73 then some (s.send .select)
  else if s.action = 0x75 then
    let s := s.readId.readName.readAge
    some (s.send (tblUpdate s.id s.name s.age))
  else if s.action = 0x64 then
    let s := s.readId
    some (s.send (.delete s.id))
  else if s.action = 0x71 then none
  else some s

end MySql

end SocketAcl
