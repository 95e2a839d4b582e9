import SocketAcl.Lib.System
import Mathlib.Data.List.Count
import Mathlib.Logic.Function.Basic

/-!
# The form of the WinForms client (`Form1.cs`)

The buttons run on the UI thread, one handler at a time: a login blocks it in `_stream.Read`.
Every click on Enter Room starts a background loop (`StartReceiving`). A loop evaluates its
condition, then `_stream.Read` with the field as it is by then, and hands what it read to the UI
thread. `Connect` assigns the two fields one after the other; a loop may run in between.

A connection is the bytes the server sent on it and no read returned yet. A login request is
answered once; behind a room request anything may be sent. A label says how many bytes a read
returns, what `Connected` says, and whether a call throws.
-/

namespace SocketAcl

namespace Form

/-- What the server sends: the answer to a login, or what comes behind a room request. -/
inductive Kind
  | login
  | room
  deriving DecidableEq

/-- Who reads: `btnLogin_Click`, or a loop. -/
inductive Reader
  | login
  | loop (i : ℕ)
  deriving DecidableEq

/-- What a reader waits for. -/
def Reader.kind : Reader → Kind
  | login => .login
  | loop _ => .room

structure Conn where
  /-- login requests that were written and not answered -/
  unanswered : ℕ
  /-- whether a room request was written -/
  entered : Bool
  /-- whether the server sends nothing any more -/
  closed : Bool
  /-- what the server sent, in order -/
  sent : List (Kind × UInt8)
  /-- what of it no read returned yet -/
  unread : List (Kind × UInt8)
  /-- what the reads returned, in order -/
  taken : List (Reader × List (Kind × UInt8))

def Conn.init : Conn where
  unanswered := 0
  entered := false
  closed := false
  sent := []
  unread := []
  taken := []

/-- A read of `n` bytes. -/
def Conn.take (c : Conn) (reader : Reader) (n : ℕ) : Conn :=
  { c with unread := c.unread.drop n, taken := c.taken ++ [(reader, c.unread.take n)] }

/-- The server sends. -/
def Conn.send (c : Conn) (kind : Kind) (data : List UInt8) : Conn :=
  { c with sent := c.sent ++ data.map (kind, ·), unread := c.unread ++ data.map (kind, ·) }

/-- A read returns 0, or throws: then the connection is gone and what it held is lost. -/
def Conn.readEnds (c : Conn) (throws : Bool) : Option Conn :=
  if throws then some { c with closed := true, unread := [] }
  else if c.closed ∧ c.unread = [] then some c
  else none

/-- Where the UI thread stands: in its message loop, between the two assignments of
`btnConnect_Click`, or in the `_stream.Read` of `btnLogin_Click`. -/
inductive UIThread
  | idle
  | connecting
  | reading (k : ℕ)
  deriving DecidableEq

/-- Where a loop of `StartReceiving` stands: at its condition, in front of `_stream.Read`, in it, in
`ProcessReceivedData`, or at its end. -/
inductive LoopAt
  | test
  | call
  | reading (k : ℕ)
  | handle
  | ended
  deriving DecidableEq

structure State where
  /-- `_client` -/
  client : Option ℕ
  /-- `_stream` -/
  stream : Option ℕ
  /-- how many connections were made -/
  next : ℕ
  ui : UIThread
  /-- the loops, in the order they were started -/
  loops : List LoopAt
  conns : ℕ → Conn

def State.init : State where
  client := none
  stream := none
  next := 0
  ui := .idle
  loops := []
  conns := fun _ => .init

inductive Label
  /-- a click on Connect; `ok`: `new TcpClient` connects -/
  | connect (ok : Bool)
  /-- `_stream = _client.GetStream()` -/
  | getStream (ok : Bool)
  /-- a click on Login; `ok`: `_stream.Write` does not throw -/
  | login (ok : Bool)
  | loginRead (n : ℕ)
  | loginReadEnds (throws : Bool)
  /-- a click on Enter Room; `ok`: neither `int.Parse` nor `_stream.Write` throws -/
  | enterRoom (ok : Bool)
  /-- a click on Send Chat -/
  | sendChat
  /-- loop `i` evaluates its condition; `connected`: what `_client.Connected` says -/
  | test (i : ℕ) (connected : Bool)
  | call (i : ℕ)
  | loopRead (i n : ℕ)
  | loopReadEnds (i : ℕ) (throws : Bool)
  /-- `ProcessReceivedData` of loop `i` returns, or throws -/
  | handle (i : ℕ) (ok : Bool)
  /-- the server answers a login request -/
  | answer (k : ℕ) (data : List UInt8)
  /-- the server sends behind a room request -/
  | notify (k : ℕ) (data : List UInt8)
  /-- the server closes its end -/
  | close (k : ℕ)

/-- The state after connection `k` changed. -/
def State.set (s : State) (k : ℕ) (c : Conn) : State := { s with conns := Function.update s.conns k c }

/-- The state after loop `i` moved. -/
def State.move (s : State) (i : ℕ) (l : LoopAt) : State := { s with loops := s.loops.set i l }

def step (s : State) : Label → Option State
  | .connect ok =>
    if s.ui = .idle then
      if ok then some { s with client := some s.next, next := s.next + 1, ui := .connecting } else some s
    else none
  | .getStream ok =>
    if s.ui = .connecting then some { s with stream := if ok then s.client else s.stream, ui := .idle } else none
  | .login ok =>
    if s.ui = .idle then
      match s.stream with
      | none => some s
      | some k =>
        if ok then
          some { s.set k { s.conns k with unanswered := (s.conns k).unanswered + 1 } with ui := .reading k }
        else some s
    else none
  | .loginRead n =>
    match s.ui with
    | .reading k =>
      if 0 < n ∧ n ≤ 256 ∧ n ≤ (s.conns k).unread.length then
        some { s.set k ((s.conns k).take .login n) with ui := .idle }
      else none
    | _ => none
  | .loginReadEnds throws =>
    match s.ui with
    | .reading k => ((s.conns k).readEnds throws).map fun c => { s.set k c with ui := .idle }
    | _ => none
  | .enterRoom ok =>
    if s.ui = .idle then
      -- `StartReceiving()` comes first
      let s := { s with loops := s.loops ++ [LoopAt.test] }
      match s.stream with
      | none => some s
      | some k => if ok then some (s.set k { s.conns k with entered := true }) else some s
    else none
  | .sendChat => if s.ui = .idle then some s else none
  | .test i connected =>
    if s.loops[i]? = some .test then
      if s.client ≠ none ∧ connected then some (s.move i .call) else some (s.move i .ended)
    else none
  | .call i =>
    if s.loops[i]? = some .call then
      match s.stream with
      | none => some (s.move i .ended)
      | some k => some (s.move i (.reading k))
    else none
  | .loopRead i n =>
    match s.loops[i]? with
    | some (.reading k) =>
      if 0 < n ∧ n ≤ 512 ∧ n ≤ (s.conns k).unread.length then
        some ((s.set k ((s.conns k).take (.loop i) n)).move i .handle)
      else none
    | _ => none
  | .loopReadEnds i throws =>
    match s.loops[i]? with
    | some (.reading k) =>
      ((s.conns k).readEnds throws).map fun c => (s.set k c).move i (if throws then .ended else .test)
    | _ => none
  -- `Invoke` waits for the UI thread
  | .handle i ok =>
    if s.loops[i]? = some .handle ∧ (ok → s.ui = .idle) then some (s.move i (if ok then .test else .ended)) else none
  | .answer k data =>
    if 0 < (s.conns k).unanswered ∧ (s.conns k).closed = false then
      some (s.set k ({ s.conns k with unanswered := (s.conns k).unanswered - 1 }.send .login data))
    else none
  | .notify k data =>
    if (s.conns k).entered ∧ (s.conns k).closed = false then some (s.set k ((s.conns k).send .room data)) else none
  | .close k => some (s.set k { s.conns k with closed := true })

/-- The reads of stream `k` that have not returned. -/
def State.pending (s : State) (k : ℕ) : ℕ := (if s.ui = .reading k then 1 else 0) + s.loops.count (.reading k)

end Form

/-- The form with its connections as a labelled system. -/
def form : System Form.State Form.Label := ⟨.init, Form.step⟩

end SocketAcl
